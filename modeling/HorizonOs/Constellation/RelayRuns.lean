import HorizonOs.Constellation.Relay

/-!
# What a relay tells its clients

Whatever the order in which its tasks take their steps, a relay's replies are true: a peer that is
told so is bound, a dialer that is connected has a tunnel to a connection bound under its
fingerprint, and one that is told there is no peer came when every bound connection was to close.
-/

namespace HorizonOs.Constellation.Relay

open HorizonOs.Lib.ByteCodec HorizonOs.Lib.Meeting HorizonOs.Lib.Runs

set_option autoImplicit false

/-! ## Forwarded bytes -/

/-- What is written is the beginning of the source, and all that was read while nothing failed. -/
structure Pump.InOrder (pump : Pump) : Prop where
  part : pump.written <+: pump.source
  all : pump.flow ≠ .broken → pump.written ++ pump.unread = pump.source
  ended : pump.flow = .ended → pump.unread = []

theorem start_in_order (source : Bytes) : (Pump.start source).InOrder where
  part := List.nil_prefix
  all _ := rfl
  ended none := by cases none

theorem turn_source (pump : Pump) (chunk : Nat) (cut : Option Nat) :
    (pump.turn chunk cut).source = pump.source := by
  unfold Pump.turn
  split <;> rfl

theorem turn_in_order {pump : Pump} (order : pump.InOrder) (chunk : Nat) (cut : Option Nat) :
    (pump.turn chunk cut).InOrder := by
  unfold Pump.turn
  split
  case h_1 running =>
    have whole := order.all (by rw [running]; decide)
    have same : pump.written ++ pump.unread.take (min chunk copyBuf) ++
        pump.unread.drop (min chunk copyBuf) = pump.source := by
      rw [List.append_assoc, List.take_append_drop, whole]
    exact ⟨⟨_, same⟩, fun _ => same, fun ended => by rw [running] at ended; cases ended⟩
  case h_2 some_ running =>
    have whole := order.all (by rw [running]; decide)
    refine ⟨?_, fun kept => absurd rfl kept, fun ended => by cases ended⟩
    rw [← whole]
    refine (List.prefix_append_right_inj pump.written).mpr ?_
    exact (List.take_prefix some_ _).trans (List.take_prefix _ _)
  case h_3 => exact order

theorem stop_source (pump : Pump) (clean : Bool) : (pump.stop clean).source = pump.source := by
  unfold Pump.stop
  split <;> rfl

theorem stop_in_order {pump : Pump} (order : pump.InOrder) (clean : Bool) :
    (pump.stop clean).InOrder := by
  unfold Pump.stop
  split
  case h_1 running =>
    have whole := order.all (by rw [running]; decide)
    refine ⟨order.part, fun _ => whole, ?_⟩
    intro ended
    by_cases last : (clean && pump.unread.isEmpty) = true
    · exact List.isEmpty_iff.mp (Bool.and_eq_true_iff.mp last).2
    · rw [if_neg last] at ended
      cases ended
  case h_2 => exact order

/-- Both directions of a tunnel, between what the two ends write. -/
structure Tunnel.Joins (tunnel : Tunnel) (dialer server : Bytes) : Prop where
  fromDialer : tunnel.toServer.source = dialer
  fromServer : tunnel.toDialer.source = server
  toServer : tunnel.toServer.InOrder
  toDialer : tunnel.toDialer.InOrder

theorem move_joins {tunnel : Tunnel} {dialer server : Bytes} (joins : tunnel.Joins dialer server)
    (toServer : Bool) (moves : Pump → Pump) (source : ∀ pump, (moves pump).source = pump.source)
    (order : ∀ pump, pump.InOrder → (moves pump).InOrder) :
    (tunnel.move toServer moves).Joins dialer server := by
  cases toServer with
  | true =>
      exact ⟨(source _).trans joins.fromDialer, joins.fromServer, order _ joins.toServer,
        joins.toDialer⟩
  | false =>
      exact ⟨joins.fromDialer, (source _).trans joins.fromServer, joins.toServer,
        order _ joins.toDialer⟩

/-! ## One task -/

/-- All that is kept for a task. -/
structure Seat where
  job : Option (Job String ConnId Unit)
  recv : Bytes
  send : Bytes
  answer : Bytes
  tunnel : Option Tunnel

def Service.seat (relay : Service) (task : TaskId) : Seat where
  job := relay.desk.jobs task
  recv := relay.recv task
  send := relay.send task
  answer := relay.answer task
  tunnel := relay.tunnel task

def Event.of : Event → Option TaskId
  | .request task _ _ => some task
  | .writes task _ => some task
  | .opens task _ => some task
  | .closes _ => none
  | .withdraws task => some task
  | .pumps task _ _ _ => some task
  | .stops task _ _ => some task

section Runs

variable (rt : Runtime)

/-- What a client has been written, by how far its task is. -/
def Stands (seat : Seat) : Phase String ConnId Unit → Prop
  | .announcing _ => seat.send = [] ∧ seat.tunnel = none
  | .holding _ => seat.send = frame .bound ∧ seat.tunnel = none
  | .withdrawn _ => seat.send = frame .bound ∧ seat.tunnel = none
  | .unanswered _ => Cut rt seat.send ∧ seat.tunnel = none
  | .calling _ _ => seat.send = [] ∧ seat.tunnel = none
  | .reached _ _ left => left = 1 ∧ seat.send = [] ∧ seat.tunnel = none
  | .met _ _ => seat.send = frame .connected ∧
      ∃ tunnel, seat.tunnel = some tunnel ∧ tunnel.Joins seat.recv seat.answer
  | .refused _ => seat.send = frame .noPeer ∧ seat.tunnel = none
  | .broken _ => Cut rt seat.send ∧ seat.tunnel = none

def Agrees (seat : Seat) : Prop :=
  match seat.job with
  | none => seat.send = [] ∧ seat.tunnel = none
  | some job => Stands rt seat job.phase

theorem seat_elsewhere (relay : Service) (event : Event) (task : TaskId)
    (other : event.of ≠ some task) : (serve rt relay event).seat task = relay.seat task := by
  have apart : ∀ owner, event.of = some owner → task ≠ owner :=
    fun owner mine same => other (mine.trans (congrArg some same.symm))
  cases event with
  | request owner conn stream =>
      have ne := apart owner rfl
      rw [serve]
      cases relay.desk.jobs owner with
      | some job => rfl
      | none =>
          cases readRequest rt stream with
          | error error => rfl
          | ok read =>
              have same := jobs_elsewhere (fun _ => ()) 1 relay.desk
                ((asksFor read.1).enter owner conn) task (by cases read.1 <;> exact other)
              simp only [Service.seat, meet, same, Function.update_of_ne ne]
  | writes owner cut =>
      have ne := apart owner rfl
      rw [serve]
      cases relay.desk.jobs owner with
      | none => rfl
      | some job =>
          dsimp only
          cases reply job.phase with
          | none => rfl
          | some resp =>
              have same := jobs_elsewhere (fun _ => ()) 1 relay.desk
                (.wrote owner (written resp cut).2) task other
              dsimp only
              split <;> simp only [Service.seat, meet, same, Function.update_of_ne ne]
  | opens owner answer =>
      have ne := apart owner rfl
      have same := jobs_elsewhere (fun _ => ()) 1 relay.desk (.opened owner) task other
      rw [serve]
      split
      · simp only [Service.seat, meet, same, Function.update_of_ne ne]
      · rfl
  | closes conn => rfl
  | withdraws owner =>
      have same := jobs_elsewhere (fun _ => ()) 1 relay.desk (.withdraws owner) task other
      rw [serve]
      simp only [Service.seat, meet, same]
  | pumps owner toServer chunk cut =>
      have ne := apart owner rfl
      rw [serve, Service.forward]
      simp only [Service.seat, Function.update_of_ne ne]
  | stops owner toServer clean =>
      have ne := apart owner rfl
      rw [serve, Service.forward]
      simp only [Service.seat, Function.update_of_ne ne]

theorem reply_cases {before : Phase String ConnId Unit} {resp : Resp}
    (writing : reply before = some resp) :
    (∃ key, before = .announcing key ∧ resp = .bound) ∨
      (∃ key, before = .calling key [] ∧ resp = .noPeer) ∨
        ∃ key waiter left, before = .reached key waiter left ∧ resp = .connected := by
  cases before with
  | announcing key =>
      cases writing
      exact .inl ⟨key, rfl, rfl⟩
  | calling key left =>
      cases left with
      | nil =>
          cases writing
          exact .inr (.inl ⟨key, rfl, rfl⟩)
      | cons waiter left => cases writing
  | reached key waiter left =>
      cases writing
      exact .inr (.inr ⟨key, waiter, left, rfl, rfl⟩)
  | holding key => cases writing
  | withdrawn key => cases writing
  | unanswered key => cases writing
  | met key waiter => cases writing
  | refused key => cases writing
  | broken key => cases writing

/-- The task's part of the state after it has written. -/
theorem seat_writes {relay : Service} {task : TaskId} {conn : ConnId}
    {before : Phase String ConnId Unit} {resp : Resp} {cut : Option Nat}
    (was : relay.desk.jobs task = some ⟨conn, before⟩) (writing : reply before = some resp)
    {bytes : Bytes} {whole : Bool} (wrote : written resp cut = (bytes, whole))
    {after : Phase String ConnId Unit} (moves : afterWrite whole before = some after) :
    (serve rt relay (.writes task cut)).seat task =
      { relay.seat task with
        job := some ⟨conn, after⟩
        send := relay.send task ++ bytes
        tunnel :=
          if resp = .connected ∧ whole = true then
            some ⟨Pump.start (relay.recv task), Pump.start (relay.answer task)⟩
          else relay.tunnel task } := by
  have job := jobs_wrote (fun _ => ()) 1 was moves
  rw [serve, was]
  dsimp only
  rw [writing]
  dsimp only [Service.seat, meet]
  rw [wrote, job, Function.update_self]
  congr 1
  split
  · exact Function.update_self ..
  · rfl

theorem agrees_announcing {relay : Service} {task : TaskId} {conn : ConnId} {key : String}
    (was : relay.desk.jobs task = some ⟨conn, .announcing key⟩)
    (stands : Stands rt (relay.seat task) (.announcing key)) (cut : Option Nat) :
    Agrees rt ((serve rt relay (.writes task cut)).seat task) := by
  have plain : Resp.bound.Plain := trivial
  obtain ⟨empty, closed⟩ : relay.send task = [] ∧ relay.tunnel task = none := stands
  cases cut with
  | none =>
      rw [seat_writes rt was rfl (written_whole plain) rfl, empty]
      exact ⟨rfl, closed⟩
  | some count =>
      rw [seat_writes rt was rfl (written_cut plain count) rfl, empty]
      exact ⟨cut_written rt plain count, closed⟩

theorem agrees_refusing {relay : Service} {task : TaskId} {conn : ConnId} {key : String}
    (was : relay.desk.jobs task = some ⟨conn, .calling key []⟩)
    (stands : Stands rt (relay.seat task) (.calling key [])) (cut : Option Nat) :
    Agrees rt ((serve rt relay (.writes task cut)).seat task) := by
  have plain : Resp.noPeer.Plain := trivial
  obtain ⟨empty, closed⟩ : relay.send task = [] ∧ relay.tunnel task = none := stands
  cases cut with
  | none =>
      rw [seat_writes rt was rfl (written_whole plain) rfl, empty]
      exact ⟨rfl, closed⟩
  | some count =>
      rw [seat_writes rt was rfl (written_cut plain count) rfl, empty]
      exact ⟨cut_written rt plain count, closed⟩

theorem agrees_connecting {relay : Service} {task : TaskId} {conn : ConnId} {key : String}
    {waiter : Waiter ConnId Unit} {left : Nat}
    (was : relay.desk.jobs task = some ⟨conn, .reached key waiter left⟩)
    (stands : Stands rt (relay.seat task) (.reached key waiter left)) (cut : Option Nat) :
    Agrees rt ((serve rt relay (.writes task cut)).seat task) := by
  have plain : Resp.connected.Plain := trivial
  obtain ⟨one, empty, closed⟩ : left = 1 ∧ relay.send task = [] ∧ relay.tunnel task = none := stands
  subst one
  cases cut with
  | none =>
      rw [seat_writes rt was rfl (written_whole plain) rfl, empty]
      refine ⟨rfl, _, rfl, rfl, rfl, start_in_order _, start_in_order _⟩
  | some count =>
      rw [seat_writes rt was rfl (written_cut plain count) rfl, empty]
      exact ⟨cut_written rt plain count, closed⟩

/-- A write takes a task on as its reply says. -/
theorem agrees_written {relay : Service} {task : TaskId} (agrees : Agrees rt (relay.seat task))
    (cut : Option Nat) : Agrees rt ((serve rt relay (.writes task cut)).seat task) := by
  cases was : relay.desk.jobs task with
  | none =>
      rw [serve, was]
      exact agrees
  | some job =>
      have stands : Stands rt (relay.seat task) job.phase := by
        rw [Agrees, Service.seat, was] at agrees
        exact agrees
      cases writing : reply job.phase with
      | none =>
          rw [serve, was]
          dsimp only
          rw [writing]
          exact agrees
      | some resp =>
          rcases reply_cases writing with ⟨key, phase, _⟩ | ⟨key, phase, _⟩ |
            ⟨key, waiter, left, phase, _⟩
          · rw [phase] at stands
            have there : relay.desk.jobs task = some ⟨job.conn, .announcing key⟩ := by
              rw [was, ← phase]
            exact agrees_announcing rt there stands cut
          · rw [phase] at stands
            have there : relay.desk.jobs task = some ⟨job.conn, .calling key []⟩ := by
              rw [was, ← phase]
            exact agrees_refusing rt there stands cut
          · rw [phase] at stands
            have there : relay.desk.jobs task = some ⟨job.conn, .reached key waiter left⟩ := by
              rw [was, ← phase]
            exact agrees_connecting rt there stands cut

/-- Only a dialer that has been told so has a tunnel. -/
theorem joins_of_tunnel {seat : Seat} {tunnel : Tunnel} (agrees : Agrees rt seat)
    (there : seat.tunnel = some tunnel) : ∃ conn key waiter,
      seat.job = some ⟨conn, .met key waiter⟩ ∧ seat.send = frame .connected ∧
        tunnel.Joins seat.recv seat.answer := by
  have nothing : seat.tunnel ≠ none := by
    rw [there]
    exact Option.some_ne_none tunnel
  rw [Agrees] at agrees
  cases was : seat.job with
  | none =>
      rw [was] at agrees
      exact absurd agrees.2 nothing
  | some job =>
      rw [was] at agrees
      obtain ⟨conn, phase⟩ := job
      dsimp only at agrees
      cases phase with
      | met key waiter =>
          obtain ⟨told, other, found, joins⟩ := agrees
          rw [there] at found
          cases found
          exact ⟨conn, key, waiter, rfl, told, joins⟩
      | announcing key => exact absurd agrees.2 nothing
      | holding key => exact absurd agrees.2 nothing
      | withdrawn key => exact absurd agrees.2 nothing
      | unanswered key => exact absurd agrees.2 nothing
      | calling key left => exact absurd agrees.2 nothing
      | reached key waiter left => exact absurd agrees.2.2 nothing
      | refused key => exact absurd agrees.2 nothing
      | broken key => exact absurd agrees.2 nothing

theorem seat_forward (relay : Service) (task : TaskId) (moves : Tunnel → Tunnel) :
    (relay.forward task moves).seat task =
      { relay.seat task with tunnel := (relay.tunnel task).map moves } := by
  rw [Service.forward]
  dsimp only [Service.seat]
  rw [Function.update_self]

theorem agrees_forwarded {relay : Service} {task : TaskId} (agrees : Agrees rt (relay.seat task))
    (toServer : Bool) (moves : Pump → Pump) (source : ∀ pump, (moves pump).source = pump.source)
    (order : ∀ pump, pump.InOrder → (moves pump).InOrder) :
    Agrees rt ((relay.forward task fun tunnel => tunnel.move toServer moves).seat task) := by
  rw [seat_forward]
  cases there : relay.tunnel task with
  | none =>
      rw [Option.map_none, ← there]
      exact agrees
  | some tunnel =>
      obtain ⟨conn, key, waiter, met, told, joins⟩ := joins_of_tunnel rt agrees there
      rw [Option.map_some, Agrees]
      dsimp only
      rw [met]
      exact ⟨told, _, rfl, move_joins joins toServer moves source order⟩

/-- Every event of a task keeps what it has been written in agreement with how far it is. -/
theorem agrees_own {relay : Service} {event : Event} {task : TaskId} (own : event.of = some task)
    (agrees : Agrees rt (relay.seat task)) : Agrees rt ((serve rt relay event).seat task) := by
  cases event with
  | request owner conn stream =>
      cases own
      rw [serve]
      cases was : relay.desk.jobs task with
      | some job => exact agrees
      | none =>
          cases read : readRequest rt stream with
          | error error => exact agrees
          | ok found =>
              have idle : relay.send task = [] ∧ relay.tunnel task = none := by
                rw [Agrees, Service.seat, was] at agrees
                exact agrees
              obtain ⟨req, rest⟩ := found
              rw [Agrees]
              dsimp only [Service.seat, meet]
              cases req with
              | bind fp =>
                  rw [asksFor, Role.enter, jobs_announce (fun _ => ()) 1 was conn fp]
                  exact idle
              | connect fp =>
                  rw [asksFor, Role.enter, jobs_call (fun _ => ()) 1 was conn fp]
                  exact idle
  | writes owner cut =>
      cases own
      exact agrees_written rt agrees cut
  | opens owner answer =>
      cases own
      rw [serve]
      split
      case h_1 conn key waiter left was =>
        have idle : relay.send task = [] ∧ relay.tunnel task = none := by
          rw [Agrees, Service.seat, was] at agrees
          exact agrees
        rw [Agrees]
        dsimp only [Service.seat, meet]
        rw [jobs_opened (fun _ => ()) 1 was]
        dsimp only
        split
        · exact idle
        · exact ⟨rfl, idle⟩
      case h_2 => exact agrees
  | closes conn => cases own
  | withdraws owner =>
      cases own
      rw [serve]
      rcases jobs_withdraws (fun _ => ()) 1 relay.desk task with
        same | ⟨conn, key, was, now⟩
      · rw [Agrees] at agrees ⊢
        dsimp only [Service.seat, meet] at agrees ⊢
        rw [same]
        exact agrees
      · have told : relay.send task = frame .bound ∧ relay.tunnel task = none := by
          rw [Agrees, Service.seat, was] at agrees
          exact agrees
        rw [Agrees]
        dsimp only [Service.seat, meet]
        rw [now]
        exact told
  | pumps owner toServer chunk cut =>
      cases own
      exact agrees_forwarded rt agrees toServer _ (fun pump => turn_source pump chunk cut)
        (fun pump order => turn_in_order order chunk cut)
  | stops owner toServer clean =>
      cases own
      exact agrees_forwarded rt agrees toServer _ (fun pump => stop_source pump clean)
        (fun pump order => stop_in_order order clean)

theorem agrees_run (events : List Event) (task : TaskId) :
    Agrees rt ((run (serve rt) Service.start events).seat task) := by
  refine run_invariant (serve rt) (fun relay => Agrees rt (relay.seat task)) ?_ Service.start
    events ⟨rfl, rfl⟩
  intro relay event agrees
  by_cases own : event.of = some task
  · exact agrees_own rt own agrees
  · rw [seat_elsewhere rt relay event task own]
    exact agrees

/-! ## The desk -/

/-- What an event is to the desk. -/
def deskEvent (relay : Service) : Event → Option (Lib.Meeting.Event String ConnId TaskId)
  | .request task conn stream =>
      match readRequest rt stream with
      | .ok (req, _) => some ((asksFor req).enter task conn)
      | .error _ => none
  | .writes task cut =>
      match relay.desk.jobs task with
      | none => none
      | some job => (reply job.phase).map fun resp => .wrote task (written resp cut).2
  | .opens task _ => some (.opened task)
  | .closes conn => some (.closes conn)
  | .withdraws task => some (.withdraws task)
  | .pumps _ _ _ _ => none
  | .stops _ _ _ => none

theorem desk_hosts : Hosts (fun _ => ()) 1 (serve rt) Service.desk (deskEvent rt) := by
  intro relay event
  cases event with
  | request owner conn stream =>
      rw [serve, deskEvent]
      cases read : readRequest rt stream with
      | error error =>
          cases relay.desk.jobs owner <;> rfl
      | ok found =>
          cases was : relay.desk.jobs owner with
          | none => rfl
          | some job => exact (enter_taken (fun _ => ()) 1 was (asksFor found.1) conn).symm
  | writes owner cut =>
      rw [serve, deskEvent]
      cases relay.desk.jobs owner with
      | none => rfl
      | some job =>
          dsimp only
          cases reply job.phase <;> rfl
  | opens owner answer =>
      rw [serve, deskEvent]
      split
      case h_1 => rfl
      case h_2 idle =>
        rw [Option.elim_some, step]
        split
        case h_1 conn key waiter left was => exact (idle conn key waiter left was).elim
        case h_2 => rfl
  | closes conn => rfl
  | withdraws owner => rfl
  | pumps owner toServer chunk cut => rfl
  | stops owner toServer clean => rfl

theorem start_desk : Service.start.desk = Point.start := rfl

theorem request_of_event {relay : Service} {event : Event} {role : Role String} {task : TaskId}
    {conn : ConnId} (enters : deskEvent rt relay event = some (role.enter task conn)) :
    ∃ stream req rest, event = .request task conn stream ∧
      readRequest rt stream = .ok (req, rest) ∧ asksFor req = role := by
  cases event with
  | request owner other stream =>
      rw [deskEvent] at enters
      cases read : readRequest rt stream with
      | error error =>
          rw [read] at enters
          cases enters
      | ok found =>
          obtain ⟨req, rest⟩ := found
          rw [read] at enters
          obtain ⟨role, rfl, rfl⟩ := enter_injective (Option.some.inj enters)
          exact ⟨stream, req, rest, rfl, read, role⟩
  | writes owner cut =>
      rw [deskEvent] at enters
      split at enters
      · cases enters
      · obtain ⟨resp, _, same⟩ := Option.map_eq_some_iff.mp enters
        exact absurd same.symm enter_ne_wrote
  | opens owner answer => cases role <;> cases enters
  | closes other => cases role <;> cases enters
  | withdraws owner => cases role <;> cases enters
  | pumps owner toServer chunk cut => cases enters
  | stops owner toServer clean => cases enters

/-! ## A dialer -/

theorem recv_serve {relay : Service} {task : TaskId} (taken : relay.desk.jobs task ≠ none)
    (event : Event) : (serve rt relay event).recv task = relay.recv task := by
  by_cases own : event.of = some task
  · cases event with
    | request owner conn stream =>
        cases own
        rw [serve]
        cases was : relay.desk.jobs task with
        | none => exact absurd was taken
        | some job => rfl
    | writes owner cut =>
        rw [serve]
        cases relay.desk.jobs owner with
        | none => rfl
        | some job =>
            dsimp only
            cases reply job.phase <;> rfl
    | opens owner answer =>
        rw [serve]
        split <;> rfl
    | closes conn => rfl
    | withdraws owner => rfl
    | pumps owner toServer chunk cut => rfl
    | stops owner toServer clean => rfl
  · exact congrArg Seat.recv (seat_elsewhere rt relay event task own)

theorem recv_run {relay : Service} {task : TaskId} (taken : relay.desk.jobs task ≠ none)
    (events : List Event) : (run (serve rt) relay events).recv task = relay.recv task := by
  induction events generalizing relay with
  | nil => rfl
  | cons event rest ih =>
      have still : (serve rt relay event).desk.jobs task ≠ none := by
        obtain ⟨job, was⟩ := Option.ne_none_iff_exists'.mp taken
        obtain ⟨later, there, _⟩ := (hosted_later (desk_hosts rt) relay [event]).jobs task job was
        rw [run_cons, run_nil] at there
        rw [there]
        exact Option.some_ne_none later
      rw [run_cons, ih still, recv_serve rt taken]

/-- What a client reads tells how far its task is. -/
theorem read_of_stands {seat : Seat} {phase : Phase String ConnId Unit} {resp : Resp}
    {more : Bytes} (stands : Stands rt seat phase)
    (read : readReply rt (seat.send ++ seat.tunnel.elim [] fun tunnel => tunnel.toDialer.written) =
      .ok (resp, more)) :
    (resp = .bound ∧ ∃ key, phase = .holding key ∨ phase = .withdrawn key) ∨
      (resp = .connected ∧ (∃ key waiter, phase = .met key waiter) ∧
        ∃ tunnel, seat.tunnel = some tunnel ∧ tunnel.Joins seat.recv seat.answer ∧
          more = tunnel.toDialer.written) ∨
      (resp = .noPeer ∧ ∃ key, phase = .refused key) := by
  have nothing : ∀ {send : Bytes}, Cut rt send → seat.send = send → seat.tunnel = none → False := by
    intro send cut sent none
    rw [sent, none, Option.elim_none, List.append_nil, read_cut rt cut] at read
    cases read
  have whole : ∀ {told : Resp}, told.Plain → seat.send = frame told → seat.tunnel = none →
      resp = told := by
    intro told plain sent none
    rw [sent, none, Option.elim_none, read_frame rt plain] at read
    cases read
    rfl
  cases phase with
  | announcing key => exact (nothing (cut_nil rt) stands.1 stands.2).elim
  | calling key left => exact (nothing (cut_nil rt) stands.1 stands.2).elim
  | reached key waiter left => exact (nothing (cut_nil rt) stands.2.1 stands.2.2).elim
  | unanswered key => exact (nothing stands.1 rfl stands.2).elim
  | broken key => exact (nothing stands.1 rfl stands.2).elim
  | holding key => exact .inl ⟨whole trivial stands.1 stands.2, key, .inl rfl⟩
  | withdrawn key => exact .inl ⟨whole trivial stands.1 stands.2, key, .inr rfl⟩
  | refused key => exact .inr (.inr ⟨whole trivial stands.1 stands.2, key, rfl⟩)
  | met key waiter =>
      obtain ⟨told, tunnel, found, joins⟩ := stands
      have plain : Resp.connected.Plain := trivial
      rw [told, found, Option.elim_some, read_frame rt plain] at read
      cases read
      exact .inr (.inl ⟨rfl, ⟨key, waiter, rfl⟩, tunnel, found, joins, rfl⟩)

theorem read_of_agrees {relay : Service} {task : TaskId} {resp : Resp} {more : Bytes}
    (agrees : Agrees rt (relay.seat task))
    (read : readReply rt (relay.stream task) = .ok (resp, more)) :
    ∃ job, relay.desk.jobs task = some job ∧ Stands rt (relay.seat task) job.phase := by
  cases was : relay.desk.jobs task with
  | some job =>
      rw [Agrees, Service.seat, was] at agrees
      exact ⟨job, rfl, agrees⟩
  | none =>
      have idle : relay.send task = [] ∧ relay.tunnel task = none := by
        rw [Agrees, Service.seat, was] at agrees
        exact agrees
      rw [Service.stream, idle.1, idle.2, Option.elim_none, List.append_nil,
        read_cut rt (cut_nil rt)] at read
      cases read

/-- A peer that has read that it is bound has asked for it, and is listed under its fingerprint
for as long as its connection is open. -/
theorem bound_peer_listed (events : List Event) (task : TaskId)
    (told : bind rt ((run (serve rt) Service.start events).stream task) = .ok ()) :
    ∃ conn offer fp more, .request task conn offer ∈ events ∧
      readRequest rt offer = .ok (.bind fp, more) ∧
      ((run (serve rt) Service.start events).desk.closed conn = false →
        conn ∈ Registry.peers (run (serve rt) Service.start events).desk.board fp) := by
  have sound := hosted_sound (desk_hosts rt) start_desk events
  obtain ⟨⟨resp, more⟩, read, bound⟩ := of_bind_ok told
  obtain ⟨⟨conn, phase⟩, was, stands⟩ := read_of_agrees rt (agrees_run rt events task) read
  obtain ⟨state, event, member, enters⟩ := hosted_asked (desk_hosts rt) start_desk events was
  obtain ⟨offer, req, rest, asked, requested, role⟩ := request_of_event rt enters
  rw [asked] at member
  change Stands rt _ phase at stands
  rcases read_of_stands rt stands read with ⟨_, key, holds⟩ | ⟨other, _⟩ | ⟨other, _⟩
  · have waits : phase.role = .waits key := by
      rcases holds with same | same
      · rw [same]
        rfl
      · rw [same]
        rfl
    cases req with
    | connect fp =>
        have other : Role.calls fp = Role.waits key := role.trans waits
        cases other
    | bind fp =>
        have same : Role.waits fp = Role.waits key := role.trans waits
        cases same
        refine ⟨conn, offer, key, rest, member, requested, ?_⟩
        intro isOpen
        rcases holds with holding | withdrawn
        · rw [holding] at was
          exact List.mem_map.mpr ⟨_, sound.present task conn _ key was rfl isOpen, rfl⟩
        · rw [withdrawn] at was
          exact absurd ((sound.gone task conn key was).symm.trans isOpen) (by decide)
  · rw [other] at bound
    cases bound
  · rw [other] at bound
    cases bound

/-- From a dialer's request on, those bound when it came are tried, and what it writes behind the
request is kept for them. -/
theorem dialer_tracked (before after : List Event) (task : TaskId) (conn : ConnId)
    (stream : Bytes) (fp : String) (rest : Bytes)
    (fresh : (run (serve rt) Service.start before).desk.jobs task = none)
    (asks : readRequest rt stream = .ok (.connect fp, rest)) :
    let called := run (serve rt) Service.start before
    let relay := run (serve rt) called (.request task conn stream :: after)
    relay.recv task = rest ∧ ∃ caller phase, relay.desk.jobs task = some ⟨caller, phase⟩ ∧
      Stands rt (relay.seat task) phase ∧
      Tried (waiters called.desk.board fp) relay.desk.closed phase := by
  intro called relay
  have agrees : Agrees rt (relay.seat task) := by
    have whole : relay =
        run (serve rt) Service.start (before ++ .request task conn stream :: after) :=
      (run_append ..).symm
    rw [whole]
    exact agrees_run rt _ task
  have asked : (serve rt called (.request task conn stream)).desk =
      meet called.desk (.call task conn fp) := by
    rw [serve, fresh, asks]
    rfl
  have kept : relay.recv task = rest := by
    have taken : (serve rt called (.request task conn stream)).desk.jobs task ≠ none := by
      rw [asked, meet, jobs_call (fun _ => ()) 1 fresh conn fp]
      exact Option.some_ne_none _
    refine (recv_run rt taken after).trans ?_
    rw [serve, fresh, asks]
    exact Function.update_self ..
  have calls : deskEvent rt called (.request task conn stream) = some (.call task conn fp) := by
    rw [deskEvent, asks]
    rfl
  have tracks : Tracks (waiters called.desk.board fp) task relay.desk :=
    hosted_tracks (desk_hosts rt) fresh calls after
  obtain ⟨caller, phase, was, tried⟩ := tracks
  refine ⟨kept, caller, phase, was, ?_, tried⟩
  rw [Agrees, Service.seat, was] at agrees
  exact agrees

/-- A listed connection has asked to be bound under the fingerprint. -/
theorem listed_asked (events : List Event) {fp : String} {peer : Waiter ConnId Unit}
    (listed : peer ∈ waiters (run (serve rt) Service.start events).desk.board fp) :
    ∃ binder offer more, .request binder peer.conn offer ∈ events ∧
      readRequest rt offer = .ok (.bind fp, more) := by
  obtain ⟨_, binder, state, event, member, enters⟩ := hosted_listed (desk_hosts rt) start_desk events listed
  have waits : deskEvent rt state event = some ((Role.waits fp).enter binder peer.conn) := enters
  obtain ⟨offer, req, more, same, read, role⟩ := request_of_event rt waits
  rw [same] at member
  cases req with
  | connect other => cases role
  | bind other =>
      cases role
      exact ⟨binder, offer, more, member, read⟩

end Runs

/-! ## One dialer -/

/-- A request as a client writes it, and more behind it. -/
def clientStream (req : Req) (more : Bytes) : Bytes :=
  putU32 req.encode.length ++ req.encode ++ more

def sampleBound : List Event := [.request 0 10 (clientStream (.bind "ab") []), .writes 0 none]

def sampleJoined : List Event := [.opens 1 [7, 8, 9], .writes 1 none, .pumps 1 false 2 none]

def sampleCalled : Service := run (serve sampleRuntime) Service.start sampleBound

def sampleRelay : Service :=
  run (serve sampleRuntime) sampleCalled
    (.request 1 20 (clientStream (.connect "ab") [5]) :: sampleJoined)

end HorizonOs.Constellation.Relay
