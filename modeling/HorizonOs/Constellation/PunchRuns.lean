import HorizonOs.Constellation.Punch

/-!
# Whom a broker brings together

In every run both ends of a punch are told each other's address, a peer hears only of dialers that
asked for a fingerprint it waits under, and a dialer that is told there is no peer came when every
waiting connection was to close.
-/

namespace HorizonOs.Constellation.Rendezvous.Punch

open HorizonOs.Lib.ByteCodec HorizonOs.Lib.Meeting HorizonOs.Lib.Runs

set_option autoImplicit false

section Runs

variable {rt : Runtime} {tooLong : String} {observed : ConnId → SocketAddr}

/-! ## The desk -/

def deskEvent (rt : Runtime) (tooLong : String) (observed : ConnId → SocketAddr)
    (broker : Broker) : Event → Option (Lib.Meeting.Event String ConnId TaskId)
  | .request task conn bytes =>
      match readMessage rt tooLong bytes with
      | .error _ => none
      | .ok req => (asksFor req).map fun role => role.enter task conn
  | .writes task success =>
      ((broker.desk.jobs task).bind (outgoing observed)).map fun _ => .wrote task success
  | .opens task => some (.opened task)
  | .closes conn => some (.closes conn)
  | .withdraws task => some (.withdraws task)

variable (rt tooLong observed) in
theorem desk_hosts : Hosts observed 2 (serve rt tooLong observed) Broker.desk
    (deskEvent rt tooLong observed) := by
  intro broker event
  cases event with
  | request task conn bytes =>
      rw [serve, deskEvent]
      cases readMessage rt tooLong bytes with
      | error error => rfl
      | ok req =>
          dsimp only
          cases asksFor req <;> rfl
  | writes task success =>
      rw [serve, deskEvent]
      cases (broker.desk.jobs task).bind (outgoing observed) <;> rfl
  | opens task => rfl
  | closes conn => rfl
  | withdraws task => rfl

theorem start_desk : Broker.start.desk = Point.start := rfl

theorem request_of_event {broker : Broker} {event : Event} {role : Role String} {task : TaskId}
    {conn : ConnId} (enters : deskEvent rt tooLong observed broker event =
      some (role.enter task conn)) :
    ∃ bytes req, event = .request task conn bytes ∧ readMessage rt tooLong bytes = .ok req ∧
      asksFor req = some role := by
  cases event with
  | request owner other bytes =>
      rw [deskEvent] at enters
      cases read : readMessage rt tooLong bytes with
      | error error =>
          rw [read] at enters
          cases enters
      | ok req =>
          rw [read] at enters
          obtain ⟨asked, kind, same⟩ := Option.map_eq_some_iff.mp enters
          obtain ⟨rfl, rfl, rfl⟩ := enter_injective same
          exact ⟨bytes, req, rfl, read, kind⟩
  | writes owner success =>
      obtain ⟨_, _, same⟩ := Option.map_eq_some_iff.mp enters
      exact absurd same.symm enter_ne_wrote
  | opens owner => cases role <;> cases enters
  | closes other => cases role <;> cases enters
  | withdraws owner => cases role <;> cases enters

theorem waits_of_asks {req : Req} {fp : String} (asks : asksFor req = some (.waits fp)) :
    req = .punchWait fp := by
  cases req <;> cases asks
  rfl

theorem calls_of_asks {req : Req} {fp : String} (asks : asksFor req = some (.calls fp)) :
    req = .punchConnect fp := by
  cases req <;> cases asks
  rfl

/-! ## One task -/

/-- What a request has been answered, by how far its task is. -/
def Stands (reply : Option Bytes) : Phase String ConnId SocketAddr → Prop
  | .holding _ => reply = some Resp.punchWaiting.encode
  | .withdrawn _ => reply = some Resp.punchWaiting.encode
  | .met _ peer => reply = some (Resp.punchGo peer.info).encode
  | .refused _ => reply = some Resp.punchNoPeer.encode
  | .reached _ _ left => reply = none ∧ (left = 2 ∨ left = 1)
  | _ => reply = none

def Agrees (job : Option (Job String ConnId SocketAddr)) (reply : Option Bytes) : Prop :=
  match job with
  | none => reply = none
  | some job => Stands reply job.phase

theorem outgoing_cases {job : Job String ConnId SocketAddr} {target : Option ConnId} {resp : Resp}
    (writing : outgoing observed job = some (target, resp)) :
    (∃ key, job.phase = .announcing key ∧ target = none ∧ resp = .punchWaiting) ∨
      (∃ key, job.phase = .calling key [] ∧ target = none ∧ resp = .punchNoPeer) ∨
      (∃ key peer, job.phase = .reached key peer 2 ∧ target = some peer.conn ∧
        resp = .punchGo (observed job.conn)) ∨
      ∃ key peer, job.phase = .reached key peer 1 ∧ target = none ∧ resp = .punchGo peer.info := by
  unfold outgoing at writing
  split at writing
  case h_1 key phase =>
    cases writing
    exact .inl ⟨key, phase, rfl, rfl⟩
  case h_2 key phase =>
    cases writing
    exact .inr (.inl ⟨key, phase, rfl, rfl⟩)
  case h_3 key peer phase =>
    cases writing
    exact .inr (.inr (.inl ⟨key, peer, phase, rfl, rfl⟩))
  case h_4 key peer phase =>
    cases writing
    exact .inr (.inr (.inr ⟨key, peer, phase, rfl, rfl⟩))
  case h_5 => cases writing

/-- A write that is none of a task's, or takes it on and is kept where it succeeds. -/
theorem serve_writes {broker : Broker} {task : TaskId} {job : Job String ConnId SocketAddr}
    {target : Option ConnId} {resp : Resp} (was : broker.desk.jobs task = some job)
    (writing : outgoing observed job = some (target, resp)) (success : Bool) :
    serve rt tooLong observed broker (.writes task success) =
      { desk := meet observed broker.desk (.wrote task success)
        replies :=
          if success = true ∧ target = none then
            Function.update broker.replies task (some resp.encode)
          else broker.replies
        pushes := fun conn =>
          if success = true ∧ target = some conn then broker.pushes conn ++ [resp.encode]
          else broker.pushes conn } := by
  rw [serve, was, Option.bind_some, writing]

theorem serve_idle {broker : Broker} {task : TaskId}
    (idle : (broker.desk.jobs task).bind (outgoing observed) = none) (success : Bool) :
    serve rt tooLong observed broker (.writes task success) = broker := by
  rw [serve, idle]

theorem agrees_written {broker : Broker} {task : TaskId}
    (agrees : Agrees (broker.desk.jobs task) (broker.replies task)) (success : Bool) :
    Agrees ((serve rt tooLong observed broker (.writes task success)).desk.jobs task)
      ((serve rt tooLong observed broker (.writes task success)).replies task) := by
  cases writing : (broker.desk.jobs task).bind (outgoing observed) with
  | none =>
      rw [serve_idle writing]
      exact agrees
  | some out =>
      obtain ⟨⟨conn, phase⟩, was, goes⟩ := Option.bind_eq_some_iff.mp writing
      obtain ⟨target, resp⟩ := out
      rw [was] at agrees
      rw [serve_writes was goes]
      dsimp only [meet]
      have taken : ∀ {after}, afterWrite success phase = some after →
          (step observed 2 broker.desk (.wrote task success)).jobs task = some ⟨conn, after⟩ :=
        fun moves => jobs_wrote observed 2 was moves
      rcases outgoing_cases goes with ⟨key, same, rfl, rfl⟩ | ⟨key, same, rfl, rfl⟩ |
        ⟨key, peer, same, rfl, rfl⟩ | ⟨key, peer, same, rfl, rfl⟩
      · dsimp only at same
        subst same
        rw [taken rfl]
        cases success with
        | true => exact Function.update_self ..
        | false => exact agrees
      · dsimp only at same
        subst same
        rw [taken rfl]
        cases success with
        | true => exact Function.update_self ..
        | false => exact agrees
      · dsimp only at same
        subst same
        rw [taken rfl]
        cases success with
        | true => exact ⟨agrees.1, .inr rfl⟩
        | false => exact agrees.1
      · dsimp only at same
        subst same
        rw [taken rfl]
        cases success with
        | true => exact Function.update_self ..
        | false => exact agrees.1

variable (observed) in
theorem agrees_entered {desk : Desk} {reply : Option Bytes} {task : TaskId} {conn : ConnId}
    {role : Role String} (agrees : Agrees (desk.jobs task) reply) :
    Agrees ((meet observed desk (role.enter task conn)).jobs task) reply := by
  cases was : desk.jobs task with
  | some job =>
      rw [meet, enter_taken observed 2 was]
      exact agrees
  | none =>
      rw [was] at agrees
      cases role with
      | waits key =>
          rw [Role.enter, meet, jobs_announce observed 2 was]
          exact agrees
      | calls key =>
          rw [Role.enter, meet, jobs_call observed 2 was]
          exact agrees

variable (observed) in
theorem agrees_opened {desk : Desk} {reply : Option Bytes} {task : TaskId}
    (agrees : Agrees (desk.jobs task) reply) :
    Agrees ((meet observed desk (.opened task)).jobs task) reply := by
  rw [meet, step]
  split
  case h_1 conn key peer left was =>
    rw [was] at agrees
    split
    · rw [jobs_set, if_pos rfl]
      exact agrees
    · rw [jobs_set, if_pos rfl]
      exact ⟨agrees, .inl rfl⟩
  case h_2 => exact agrees

variable (observed) in
theorem agrees_withdrawn {desk : Desk} {reply : Option Bytes} {task : TaskId}
    (agrees : Agrees (desk.jobs task) reply) :
    Agrees ((meet observed desk (.withdraws task)).jobs task) reply := by
  rcases jobs_withdraws observed 2 desk task with same | ⟨conn, key, was, now⟩
  · rw [meet, same]
    exact agrees
  · rw [was] at agrees
    rw [meet, now]
    exact agrees

theorem agrees_serve (broker : Broker) (event : Event)
    (agrees : ∀ task, Agrees (broker.desk.jobs task) (broker.replies task)) (task : TaskId) :
    Agrees ((serve rt tooLong observed broker event).desk.jobs task)
      ((serve rt tooLong observed broker event).replies task) := by
  have elsewhere : ∀ event : Lib.Meeting.Event String ConnId TaskId, event.of ≠ some task →
      Agrees ((meet observed broker.desk event).jobs task) (broker.replies task) := by
    intro event other
    rw [meet, jobs_elsewhere observed 2 broker.desk event task other]
    exact agrees task
  cases event with
  | request owner conn bytes =>
      rw [serve]
      split
      · exact agrees task
      · split
        · exact agrees task
        · rename_i role _
          by_cases own : owner = task
          · rw [own]
            exact agrees_entered observed (agrees task)
          · refine elsewhere _ ?_
            cases role <;> exact fun same => own (Option.some.inj same)
  | writes owner success =>
      by_cases own : owner = task
      · rw [own]
        exact agrees_written (agrees task) success
      · rw [serve]
        split
        · exact agrees task
        · dsimp only
          have there := elsewhere (.wrote owner success) fun same => own (Option.some.inj same)
          split
          · rw [Function.update_of_ne (Ne.symm own)]
            exact there
          · exact there
  | opens owner =>
      by_cases own : owner = task
      · rw [own]
        exact agrees_opened observed (agrees task)
      · exact elsewhere (.opened owner) fun same => own (Option.some.inj same)
  | closes conn => exact agrees task
  | withdraws owner =>
      by_cases own : owner = task
      · rw [own]
        exact agrees_withdrawn observed (agrees task)
      · exact elsewhere (.withdraws owner) fun same => own (Option.some.inj same)

variable (rt tooLong observed) in
theorem agrees_run (events : List Event) (task : TaskId) :
    Agrees ((run (serve rt tooLong observed) Broker.start events).desk.jobs task)
      ((run (serve rt tooLong observed) Broker.start events).replies task) :=
  run_invariant (serve rt tooLong observed)
    (fun broker => ∀ task, Agrees (broker.desk.jobs task) (broker.replies task))
    agrees_serve Broker.start events (fun _ => rfl) task

/-! ## What is pushed -/

/-- The peer of a dialer that has had its push. -/
def pushedTo : Phase String ConnId SocketAddr → Option (Waiter ConnId SocketAddr)
  | .reached _ peer 1 => some peer
  | .met _ peer => some peer
  | _ => none

/-- Only a write brings a dialer to where its peer has been pushed to. -/
theorem pushed_before {desk : Desk} {event : Lib.Meeting.Event String ConnId TaskId} {task : TaskId}
    (reads : ∀ success, event ≠ .wrote task success) {dialer : ConnId}
    {phase : Phase String ConnId SocketAddr} {peer : Waiter ConnId SocketAddr}
    (there : (meet observed desk event).jobs task = some ⟨dialer, phase⟩)
    (pushed : pushedTo phase = some peer) : desk.jobs task = some ⟨dialer, phase⟩ := by
  by_cases own : event.of = some task
  · cases event with
    | announce owner conn key =>
        cases own
        cases was : desk.jobs task with
        | some job =>
            rw [← was]
            exact (congrArg (fun point => point.jobs task)
              (enter_taken observed 2 was (.waits key) conn)).symm.trans there
        | none =>
            rw [meet, jobs_announce observed 2 was] at there
            cases there
            cases pushed
    | call owner conn key =>
        cases own
        cases was : desk.jobs task with
        | some job =>
            rw [← was]
            exact (congrArg (fun point => point.jobs task)
              (enter_taken observed 2 was (.calls key) conn)).symm.trans there
        | none =>
            rw [meet, jobs_call observed 2 was] at there
            cases there
            cases pushed
    | wrote owner success =>
        cases own
        exact absurd rfl (reads success)
    | opened owner =>
        cases own
        rw [meet, step] at there
        split at there
        · split at there
          · rw [jobs_set, if_pos rfl] at there
            cases there
            cases pushed
          · rw [jobs_set, if_pos rfl] at there
            cases there
            cases pushed
        · exact there
    | closes conn => cases own
    | withdraws owner =>
        cases own
        rcases jobs_withdraws observed 2 desk task with same | ⟨conn, key, was, now⟩
        · exact same.symm.trans there
        · rw [meet, now] at there
          cases there
          cases pushed
  · rw [meet, jobs_elsewhere observed 2 desk event task own] at there
    exact there

/-- A push has been asked for by a dialer, under a fingerprint that its peer waits under; and the
peer of a dialer that is past it has it. -/
structure Pushed (observed : ConnId → SocketAddr) (broker : Broker) : Prop where
  asked : ∀ conn, ∀ push ∈ broker.pushes conn, ∃ task dialer phase key,
    broker.desk.jobs task = some ⟨dialer, phase⟩ ∧ phase.role = .calls key ∧
      Announced observed broker.desk key ⟨conn, observed conn⟩ ∧
      push = (Resp.punchGo (observed dialer)).encode
  told : ∀ task dialer phase peer, broker.desk.jobs task = some ⟨dialer, phase⟩ →
    pushedTo phase = some peer → (Resp.punchGo (observed dialer)).encode ∈ broker.pushes peer.conn

theorem asked_later {before after : Desk} (later : Later before after) {conn : ConnId} {push : Bytes}
    (asked : ∃ task dialer phase key, before.jobs task = some ⟨dialer, phase⟩ ∧
      phase.role = .calls key ∧ Announced observed before key ⟨conn, observed conn⟩ ∧
      push = (Resp.punchGo (observed dialer)).encode) :
    ∃ task dialer phase key, after.jobs task = some ⟨dialer, phase⟩ ∧
      phase.role = .calls key ∧ Announced observed after key ⟨conn, observed conn⟩ ∧
      push = (Resp.punchGo (observed dialer)).encode := by
  obtain ⟨task, dialer, phase, key, was, role, announced, same⟩ := asked
  obtain ⟨⟨conn, next⟩, there, sameConn, sameRole⟩ := later.jobs task _ was
  refine ⟨task, conn, next, key, there, sameRole.trans role, announced_later observed later announced,
    ?_⟩
  rw [same]
  exact congrArg (fun conn => (Resp.punchGo (observed conn)).encode) sameConn.symm

/-- An event that writes nothing. -/
theorem pushed_moves {broker : Broker} (pushed : Pushed observed broker) {desk : Desk}
    (later : Later broker.desk desk)
    (before : ∀ task dialer phase peer, desk.jobs task = some ⟨dialer, phase⟩ →
      pushedTo phase = some peer → broker.desk.jobs task = some ⟨dialer, phase⟩) :
    Pushed observed { broker with desk := desk } where
  asked conn push member := asked_later later (pushed.asked conn push member)
  told task dialer phase peer there brought :=
    pushed.told task dialer phase peer (before task dialer phase peer there brought) brought

theorem pushed_written {broker : Broker} (pushed : Pushed observed broker)
    (sound : Sound observed broker.desk) {task : TaskId}
    (agrees : Agrees (broker.desk.jobs task) (broker.replies task)) (success : Bool) :
    Pushed observed (serve rt tooLong observed broker (.writes task success)) := by
  cases writing : (broker.desk.jobs task).bind (outgoing observed) with
  | none =>
      rw [serve_idle writing]
      exact pushed
  | some out =>
      obtain ⟨⟨conn, phase⟩, was, goes⟩ := Option.bind_eq_some_iff.mp writing
      obtain ⟨target, resp⟩ := out
      rw [was] at agrees
      rw [serve_writes was goes]
      have later : Later broker.desk (meet observed broker.desk (.wrote task success)) :=
        later_step observed 2 broker.desk (.wrote task success)
      constructor
      · intro peer push member
        dsimp only at member
        split at member
        · rename_i sends
          rcases List.mem_append.mp member with old | new
          · exact asked_later later (pushed.asked peer push old)
          · rcases outgoing_cases goes with ⟨_, _, none, _⟩ | ⟨_, _, none, _⟩ |
              ⟨key, other, same, to_, said⟩ | ⟨_, _, _, none, _⟩
            · exact absurd (none.symm.trans sends.2) (Option.some_ne_none peer).symm
            · exact absurd (none.symm.trans sends.2) (Option.some_ne_none peer).symm
            · have this : other.conn = peer := Option.some.inj (to_.symm.trans sends.2)
              dsimp only at same
              subst same
              have chosen : Announced observed broker.desk key other :=
                sound.chosen task conn _ key other was rfl (List.mem_singleton_self other)
              have named : other = ⟨peer, observed peer⟩ := by
                rw [← this, ← chosen.1]
              rw [named] at chosen
              refine asked_later later ⟨task, conn, _, key, was, rfl, chosen, ?_⟩
              rw [List.mem_singleton.mp new, said]
            · exact absurd (none.symm.trans sends.2) (Option.some_ne_none peer).symm
        · exact asked_later later (pushed.asked peer push member)
      · intro other dialer next peer there brought
        have grows : ∀ push ∈ broker.pushes peer.conn,
            push ∈ (if success = true ∧ target = some peer.conn then
              broker.pushes peer.conn ++ [resp.encode] else broker.pushes peer.conn) := by
          intro push member
          split
          · exact List.mem_append_left _ member
          · exact member
        dsimp only
        by_cases own : other = task
        · subst own
          have taken : ∀ {after}, afterWrite success phase = some after →
              (⟨dialer, next⟩ : Job String ConnId SocketAddr) = ⟨conn, after⟩ := by
            intro after moves
            exact Option.some.inj (there.symm.trans (jobs_wrote observed 2 was moves))
          rcases outgoing_cases goes with ⟨key, same, rfl, rfl⟩ | ⟨key, same, rfl, rfl⟩ |
            ⟨key, chosen, same, rfl, rfl⟩ | ⟨key, chosen, same, rfl, rfl⟩
          · dsimp only at same
            subst same
            cases taken rfl
            cases success <;> cases brought
          · dsimp only at same
            subst same
            cases taken rfl
            cases success <;> cases brought
          · dsimp only at same
            subst same
            cases taken rfl
            cases success with
            | false => cases brought
            | true =>
                cases brought
                rw [if_pos ⟨rfl, rfl⟩]
                exact List.mem_append_right _ (List.mem_singleton_self _)
          · dsimp only at same
            subst same
            cases taken rfl
            cases success with
            | false => cases brought
            | true =>
                cases brought
                exact grows _ (pushed.told other conn _ peer was rfl)
        · have before : broker.desk.jobs other = some ⟨dialer, next⟩ := by
            rw [← there]
            exact (jobs_elsewhere observed 2 broker.desk (.wrote task success) other
              fun same => own (Option.some.inj same).symm).symm
          exact grows _ (pushed.told other dialer next peer before brought)

theorem pushed_serve {broker : Broker} (pushed : Pushed observed broker)
    (sound : Sound observed broker.desk)
    (agrees : ∀ task, Agrees (broker.desk.jobs task) (broker.replies task)) (event : Event) :
    Pushed observed (serve rt tooLong observed broker event) := by
  have moves : ∀ event : Lib.Meeting.Event String ConnId TaskId,
      (∀ task success, event ≠ .wrote task success) →
        Pushed observed { broker with desk := meet observed broker.desk event } := by
    intro event reads
    refine pushed_moves pushed (later_step observed 2 broker.desk event) ?_
    exact fun task dialer phase peer there brought => pushed_before (reads task) there brought
  cases event with
  | request owner conn bytes =>
      rw [serve]
      split
      · exact pushed
      · split
        · exact pushed
        · exact moves _ fun task success => enter_ne_wrote
  | writes owner success => exact pushed_written pushed sound (agrees owner) success
  | opens owner => exact moves _ fun task success same => by cases same
  | closes conn => exact moves _ fun task success same => by cases same
  | withdraws owner => exact moves _ fun task success same => by cases same

theorem pushed_run (rt : Runtime) (tooLong : String) (observed : ConnId → SocketAddr)
    (events : List Event) :
    Pushed observed (run (serve rt tooLong observed) Broker.start events) := by
  have all := run_invariant (serve rt tooLong observed)
    (fun broker => Pushed observed broker ∧ Sound observed broker.desk ∧
      ∀ task, Agrees (broker.desk.jobs task) (broker.replies task)) ?_ Broker.start events ?_
  · exact all.1
  · rintro broker event ⟨pushed, sound, agrees⟩
    exact ⟨pushed_serve pushed sound agrees event, hosted_sound_step (desk_hosts rt tooLong observed) sound event,
      agrees_serve broker event agrees⟩
  · refine ⟨⟨?_, ?_⟩, sound_start observed, fun task => rfl⟩
    · intro conn push none
      cases none
    · intro task dialer phase peer none
      cases none

/-! ## A dialer -/

/-- What a client reads tells how far its task is. -/
theorem read_of_stands {reply : Option Bytes} {phase : Phase String ConnId SocketAddr} {resp : Resp}
    (stands : Stands reply phase) (read : readReply rt tooLong reply = .ok resp) :
    (resp = .punchWaiting ∧ ∃ key, phase = .holding key ∨ phase = .withdrawn key) ∨
      (∃ key peer, phase = .met key peer ∧ resp = .punchGo (plain peer.info)) ∨
      (resp = .punchNoPeer ∧ ∃ key, phase = .refused key) := by
  have nothing : reply ≠ none := by
    intro none
    rw [none] at read
    cases read
  have waiting : reply = some Resp.punchWaiting.encode → resp = .punchWaiting := by
    intro same
    rw [same, read_waiting] at read
    cases read
    rfl
  cases phase with
  | announcing key => exact absurd stands nothing
  | calling key left => exact absurd stands nothing
  | reached key peer left => exact absurd stands.1 nothing
  | unanswered key => exact absurd stands nothing
  | broken key => exact absurd stands nothing
  | holding key => exact .inl ⟨waiting stands, key, .inl rfl⟩
  | withdrawn key => exact .inl ⟨waiting stands, key, .inr rfl⟩
  | met key peer =>
      have same : reply = some (Resp.punchGo peer.info).encode := stands
      rw [same, read_go] at read
      cases read
      exact .inr (.inl ⟨key, peer, rfl, rfl⟩)
  | refused key =>
      have same : reply = some Resp.punchNoPeer.encode := stands
      rw [same, read_no_peer] at read
      cases read
      exact .inr (.inr ⟨rfl, key, rfl⟩)

theorem read_of_agrees {broker : Broker} {task : TaskId} {resp : Resp}
    (agrees : Agrees (broker.desk.jobs task) (broker.replies task))
    (read : readReply rt tooLong (broker.replies task) = .ok resp) :
    ∃ conn phase, broker.desk.jobs task = some ⟨conn, phase⟩ ∧ Stands (broker.replies task) phase := by
  cases was : broker.desk.jobs task with
  | some job =>
      rw [was] at agrees
      exact ⟨job.conn, job.phase, rfl, agrees⟩
  | none =>
      rw [was] at agrees
      rw [show broker.replies task = none from agrees] at read
      cases read

/-- A peer that has been told it waits is found under its fingerprint for as long as its connection
is open. -/
theorem waiting_peer_listed (events : List Event) (task : TaskId)
    (told : listen rt tooLong
      ((run (serve rt tooLong observed) Broker.start events).replies task) = .ok ()) :
    ∃ conn offer fp, .request task conn offer ∈ events ∧
      readMessage rt tooLong offer = .ok (.punchWait fp) ∧
      ((run (serve rt tooLong observed) Broker.start events).desk.closed conn = false →
        (conn, observed conn) ∈
          punchWaiters (run (serve rt tooLong observed) Broker.start events).desk.board fp) := by
  have sound := hosted_sound (desk_hosts rt tooLong observed) start_desk events
  obtain ⟨resp, read, waits⟩ := of_bind_ok told
  obtain ⟨conn, phase, was, stands⟩ := read_of_agrees (agrees_run rt tooLong observed events task) read
  obtain ⟨state, event, member, enters⟩ := hosted_asked (desk_hosts rt tooLong observed) start_desk events was
  obtain ⟨offer, req, asked, requested, role⟩ := request_of_event enters
  rw [asked] at member
  rcases read_of_stands stands read with ⟨_, key, holds⟩ | ⟨key, peer, _, other⟩ | ⟨other, _⟩
  · have own : phase.role = .waits key := by
      rcases holds with same | same
      · rw [same]
        rfl
      · rw [same]
        rfl
    have req_ := waits_of_asks (role.trans (congrArg some own))
    rw [req_] at requested
    refine ⟨conn, offer, key, member, requested, ?_⟩
    intro isOpen
    rcases holds with holding | withdrawn
    · rw [holding] at was
      exact List.mem_map.mpr ⟨_, sound.present task conn _ key was rfl isOpen, rfl⟩
    · rw [withdrawn] at was
      exact absurd ((sound.gone task conn key was).symm.trans isOpen) (by decide)
  · rw [other] at waits
    cases waits
  · rw [other] at waits
    cases waits

theorem listed_asked (events : List Event) {fp : String} {peer : Waiter ConnId SocketAddr}
    (listed : peer ∈ waiters (run (serve rt tooLong observed) Broker.start events).desk.board fp) :
    peer.info = observed peer.conn ∧ ∃ binder offer, .request binder peer.conn offer ∈ events ∧
      readMessage rt tooLong offer = .ok (.punchWait fp) := by
  obtain ⟨info, binder, state, event, member, enters⟩ :=
    hosted_listed (desk_hosts rt tooLong observed) start_desk events listed
  have waits : deskEvent rt tooLong observed state event =
      some ((Role.waits fp).enter binder peer.conn) := enters
  obtain ⟨offer, req, same, read, role⟩ := request_of_event waits
  rw [same] at member
  rw [waits_of_asks role] at read
  exact ⟨info, binder, offer, member, read⟩

/-- From a dialer's request on, those waiting when it came are tried. -/
theorem dialer_tracked (before after : List Event) (task : TaskId) (conn : ConnId) (bytes : Bytes)
    (fp : String)
    (fresh : (run (serve rt tooLong observed) Broker.start before).desk.jobs task = none)
    (asks : readMessage rt tooLong bytes = .ok (.punchConnect fp)) :
    let called := run (serve rt tooLong observed) Broker.start before
    let broker := run (serve rt tooLong observed) called (.request task conn bytes :: after)
    ∃ phase, broker.desk.jobs task = some ⟨conn, phase⟩ ∧ Stands (broker.replies task) phase ∧
      Tried (waiters called.desk.board fp) broker.desk.closed phase := by
  intro called broker
  have hosts := desk_hosts rt tooLong observed
  have calls : deskEvent rt tooLong observed called (.request task conn bytes) =
      some (.call task conn fp) := by
    rw [deskEvent, asks]
    rfl
  obtain ⟨caller, phase, was, tried⟩ := hosted_tracks hosts fresh calls after
  have began : (serve rt tooLong observed called (.request task conn bytes)).desk.jobs task =
      some ⟨conn, .calling fp (waiters called.desk.board fp)⟩ := by
    have now := hosts called (.request task conn bytes)
    rw [calls, Option.elim_some] at now
    rw [now]
    exact jobs_call observed 2 fresh conn fp
  obtain ⟨job, there, same, _⟩ := (hosted_later hosts _ after).jobs task _ began
  have mine : caller = conn := by
    have both := Option.some.inj (was.symm.trans there)
    exact (congrArg Job.conn both).trans same
  rw [mine] at was
  have agrees := agrees_run rt tooLong observed
    (before ++ .request task conn bytes :: after) task
  rw [run_append] at agrees
  refine ⟨phase, was, ?_, tried⟩
  have stands : Agrees (some ⟨conn, phase⟩) (broker.replies task) := by
    rw [← was]
    exact agrees
  exact stands

/-- What a connection is pushed has been asked for under a fingerprint that it waits under. -/
theorem pushes_asked (events : List Event) {peer : ConnId} {push : Bytes}
    (member : push ∈ (run (serve rt tooLong observed) Broker.start events).pushes peer) :
    ∃ binder offer dialer caller request shared,
      .request binder peer offer ∈ events ∧
      readMessage rt tooLong offer = .ok (.punchWait shared) ∧
      .request dialer caller request ∈ events ∧
      readMessage rt tooLong request = .ok (.punchConnect shared) ∧
      probe rt tooLong push = some (plain (observed caller)) := by
  have hosts := desk_hosts rt tooLong observed
  obtain ⟨dialer, caller, phase, key, was, role, announced, same⟩ :=
    (pushed_run rt tooLong observed events).asked peer push member
  obtain ⟨_, binder, job, there, owner, waits⟩ := announced
  obtain ⟨state, event, asked, enters⟩ := hosted_asked hosts start_desk events was
  obtain ⟨request, req, is_, requested, kind⟩ := request_of_event enters
  obtain ⟨state', event', asked', enters'⟩ := hosted_asked hosts start_desk events there
  obtain ⟨offer, req', is_', offered, kind'⟩ := request_of_event enters'
  rw [calls_of_asks (kind.trans (congrArg some role))] at requested
  rw [waits_of_asks (kind'.trans (congrArg some waits))] at offered
  rw [is_] at asked
  rw [is_', owner] at asked'
  refine ⟨binder, offer, dialer, caller, request, key, asked', offered, asked, requested, ?_⟩
  rw [same]
  exact probe_go rt tooLong (observed caller)

/-- In every run. A dialer that is told an address is told that of the first of the connections
waiting under its fingerprint that had not closed, and that peer has been pushed the dialer's own.
A dialer that is told there is no peer asked when every waiting connection was to close. And a
connection is pushed addresses of those only that asked for a fingerprint it waits under. -/
theorem punch_brokered (before after : List Event) (task : TaskId) (conn : ConnId) (bytes : Bytes)
    (fp : String)
    (fresh : (run (serve rt tooLong observed) Broker.start before).desk.jobs task = none)
    (asks : readMessage rt tooLong bytes = .ok (.punchConnect fp)) :
    let called := run (serve rt tooLong observed) Broker.start before
    let broker := run (serve rt tooLong observed) called (.request task conn bytes :: after)
    let waiting := punchWaiters called.desk.board fp
    (∀ addr, connect rt tooLong (broker.replies task) = .ok addr →
      ∃ passed peer left, waiting = passed ++ (peer, observed peer) :: left ∧
        (∀ other ∈ passed, broker.desk.closed other.1 = true) ∧
        (∃ binder offer, .request binder peer offer ∈ before ∧
          readMessage rt tooLong offer = .ok (.punchWait fp)) ∧
        addr = plain (observed peer) ∧
        ∃ push ∈ broker.pushes peer, probe rt tooLong push = some (plain (observed conn))) ∧
    (readReply rt tooLong (broker.replies task) = .ok .punchNoPeer →
      (∀ peer ∈ waiting, broker.desk.closed peer.1 = true) ∧
      ∀ binder, listen rt tooLong (called.replies binder) = .ok () → ∃ peer offer served,
        .request binder peer offer ∈ before ∧
        readMessage rt tooLong offer = .ok (.punchWait served) ∧
        (served = fp → broker.desk.closed peer = true)) ∧
    ∀ peer, ∀ push ∈ broker.pushes peer, ∃ binder offer dialer caller request shared,
      .request binder peer offer ∈ before ++ .request task conn bytes :: after ∧
      readMessage rt tooLong offer = .ok (.punchWait shared) ∧
      .request dialer caller request ∈ before ++ .request task conn bytes :: after ∧
      readMessage rt tooLong request = .ok (.punchConnect shared) ∧
      probe rt tooLong push = some (plain (observed caller)) := by
  intro called broker waiting
  have whole : broker = run (serve rt tooLong observed) Broker.start
      (before ++ .request task conn bytes :: after) := (run_append ..).symm
  obtain ⟨phase, was, stands, tried⟩ := dialer_tracked before after task conn bytes fp fresh asks
  refine ⟨?_, ?_, ?_⟩
  · intro addr connected
    obtain ⟨resp, read, go⟩ := of_bind_ok connected
    rcases read_of_stands stands read with ⟨other, _⟩ | ⟨key, peer, met, same⟩ | ⟨other, _⟩
    · rw [other] at go
      cases go
    · rw [same] at go
      cases go
      rw [met] at tried was
      obtain ⟨passed, left, split, gone⟩ := tried
      have listed : peer ∈ waiters called.desk.board fp := by
        rw [split]
        exact List.mem_append_right passed List.mem_cons_self
      obtain ⟨info, asked⟩ := listed_asked before listed
      refine ⟨passed.map fun waiter => (waiter.conn, waiter.info), peer.conn,
        left.map fun waiter => (waiter.conn, waiter.info), ?_, ?_, asked, ?_, ?_⟩
      · rw [← info]
        exact (congrArg (List.map fun waiter => (waiter.conn, waiter.info)) split).trans
          List.map_append
      · intro other member
        obtain ⟨waiter, there, rfl⟩ := List.mem_map.mp member
        exact gone waiter there
      · rw [← info]
      · refine ⟨_, ?_, probe_go rt tooLong (observed conn)⟩
        have pushed := pushed_run rt tooLong observed (before ++ .request task conn bytes :: after)
        rw [← whole] at pushed
        exact pushed.told task conn _ peer was rfl
    · rw [other] at go
      cases go
  · intro refused
    have gone : ∀ peer ∈ waiting, broker.desk.closed peer.1 = true := by
      rcases read_of_stands stands refused with ⟨other, _⟩ | ⟨key, peer, _, other⟩ | ⟨_, key, same⟩
      · cases other
      · cases other
      · rw [same] at tried
        intro peer member
        obtain ⟨waiter, there, rfl⟩ := List.mem_map.mp member
        exact tried waiter there
    refine ⟨gone, ?_⟩
    intro binder told
    obtain ⟨peer, offer, served, asked, read, listed⟩ := waiting_peer_listed before binder told
    refine ⟨peer, offer, served, asked, read, ?_⟩
    intro same
    cases closed : called.desk.closed peer with
    | true =>
        have later := hosted_later (desk_hosts rt tooLong observed) called
          (.request task conn bytes :: after)
        exact later.closed peer closed
    | false =>
        rw [same] at listed
        exact gone (peer, observed peer) (listed closed)
  · intro peer push member
    rw [whole] at member
    exact pushes_asked _ member

end Runs

/-! ## One dialer -/

def sampleObserved (conn : ConnId) : SocketAddr :=
  if conn = 10 then manyPorts else SocketAddr.new manyPorts.ip 6000

def sampleWaiting : List Event := [.request 0 10 (Req.punchWait "ab").encode, .writes 0 true]

def samplePunched : List Event := [.opens 1, .writes 1 true, .writes 1 true]

def sampleCalled : Broker :=
  run (serve sampleRuntime "too long" sampleObserved) Broker.start sampleWaiting

def sampleBroker : Broker :=
  run (serve sampleRuntime "too long" sampleObserved) sampleCalled
    (.request 1 20 (Req.punchConnect "ab").encode :: samplePunched)

theorem punch_brokered_sample :
    ∃ passed peer left,
      punchWaiters sampleCalled.desk.board "ab" = passed ++ (peer, sampleObserved peer) :: left ∧
      (∀ other ∈ passed, sampleBroker.desk.closed other.1 = true) ∧
      (∃ binder offer, .request binder peer offer ∈ sampleWaiting ∧
        readMessage sampleRuntime "too long" offer = .ok (.punchWait "ab")) ∧
      manyPorts = plain (sampleObserved peer) ∧
      ∃ push ∈ sampleBroker.pushes peer,
        probe sampleRuntime "too long" push = some (plain (sampleObserved 20)) :=
  (punch_brokered sampleWaiting samplePunched 1 20 (Req.punchConnect "ab").encode "ab" rfl
    (read_message_encode sampleRuntime "too long" (.punchConnect "ab") (by decide)
      (by decide))).1 manyPorts rfl

end HorizonOs.Constellation.Rendezvous.Punch
