import HorizonOs.Constellation.Channel
import HorizonOs.Constellation.RelayRuns

/-!
# Frames through a relay

The two ends of a tunnel speak the encrypted channel through it. However the relay cuts what it
forwards, and wherever it breaks off, what one end receives are the first frames that the other
has sent; and all of them where the relay came to the end of the stream.
-/

namespace HorizonOs.Constellation.Relay

open HorizonOs.Lib.ByteCodec HorizonOs.Lib.Runs

set_option autoImplicit false

section Frames

variable {σ : Type}

/-! ## More bytes change nothing -/

theorem read_exact_extends {closed : String} {count : Nat} {sent inbox : Bytes} {state : σ}
    {bytes : Bytes} {after : NoiseChannel σ}
    (read : readExact closed count ⟨sent, inbox, state⟩ = .ok bytes after) (more : Bytes) :
    after = ⟨sent, after.inbox, state⟩ ∧
      readExact closed count ⟨sent, inbox ++ more, state⟩ =
        .ok bytes ⟨sent, after.inbox ++ more, state⟩ := by
  rw [readExact] at read
  dsimp only at read
  split at read
  · cases read
  · rename_i enough
    cases read
    have still : ¬ (inbox ++ more).length < count := by
      rw [List.length_append]
      omega
    refine ⟨rfl, ?_⟩
    rw [readExact]
    dsimp only
    rw [if_neg still, List.take_append_of_le_length (Nat.le_of_not_lt enough),
      List.drop_append_of_le_length (Nat.le_of_not_lt enough)]

theorem read_seg_extends {closed : String} {sent inbox : Bytes} {state : σ} {seg : Bytes}
    {after : NoiseChannel σ} (read : readSeg closed ⟨sent, inbox, state⟩ = .ok seg after)
    (more : Bytes) :
    after = ⟨sent, after.inbox, state⟩ ∧
      readSeg closed ⟨sent, inbox ++ more, state⟩ = .ok seg ⟨sent, after.inbox ++ more, state⟩ := by
  rw [readSeg, bind_apply] at read
  cases header : readExact closed 2 ⟨sent, inbox, state⟩ with
  | error error middle =>
      rw [header] at read
      cases read
  | ok length middle =>
      rw [header] at read
      obtain ⟨same, first⟩ := read_exact_extends header more
      dsimp only at read
      rw [same] at read
      obtain ⟨last, second⟩ := read_exact_extends read more
      refine ⟨last, ?_⟩
      rw [readSeg, bind_apply, first]
      exact second

theorem recv_loop_extends {noise : Noise σ} {closed : String} {fuel larger : Nat}
    (le : fuel ≤ larger) {plain : Bytes} {total : Option Nat} {sent inbox : Bytes} {state : σ}
    {frame : Bytes} {after : NoiseChannel σ}
    (received : recvLoop noise closed fuel plain total ⟨sent, inbox, state⟩ = .ok frame after)
    (more : Bytes) :
    recvLoop noise closed larger plain total ⟨sent, inbox ++ more, state⟩ =
      .ok frame { after with inbox := after.inbox ++ more } := by
  induction fuel generalizing larger plain total inbox state with
  | zero => cases received
  | succ fuel ih =>
      obtain ⟨larger, rfl⟩ : ∃ less, larger = less + 1 := ⟨larger - 1, by omega⟩
      rw [recvLoop] at received ⊢
      dsimp only at received ⊢
      cases read : readSeg closed ⟨sent, inbox, state⟩ with
      | error error middle =>
          rw [read] at received
          cases received
      | ok cipher middle =>
          obtain ⟨same, again⟩ := read_seg_extends read more
          rw [read] at received
          rw [again]
          rw [same] at received
          dsimp only at received ⊢
          cases opened : noise.readMessage cipher state with
          | error message =>
              rw [opened] at received
              cases received
          | ok pair =>
              rw [opened] at received
              dsimp only at received ⊢
              have less : fuel ≤ larger := Nat.le_of_succ_le_succ le
              cases known : announced total (plain ++ pair.1) with
              | none =>
                  rw [known] at received
                  exact ih less received
              | some length =>
                  rw [known] at received
                  dsimp only at received ⊢
                  split at received
                  · cases received
                    rename_i enough
                    rw [if_pos enough]
                  · rename_i short
                    rw [if_neg short]
                    exact ih less received

/-- A frame that is received is the one received of a stream that goes on. -/
theorem recv_extends {noise : Noise σ} {closed : String} {sent inbox : Bytes} {state : σ}
    {frame : Bytes} {after : NoiseChannel σ}
    (received : recv noise closed ⟨sent, inbox, state⟩ = .ok frame after) (more : Bytes) :
    recv noise closed ⟨sent, inbox ++ more, state⟩ =
      .ok frame { after with inbox := after.inbox ++ more } := by
  refine recv_loop_extends ?_ received more
  dsimp only
  rw [List.length_append]
  omega

/-! ## Frames of a stream that breaks off -/

/-- What a receiver makes of the first bytes of a stream that begins with these. -/
structure Delivers (noise : Noise σ) (closed : String) (frames : List Bytes) (bytes : Bytes)
    (receiver : σ) : Prop where
  /-- Nothing but the frames is received, and none out of its turn. -/
  part : ∀ later written, written <+: bytes ++ later → ∀ count ≤ frames.length,
    ∀ other received after,
      recvAll noise closed count ⟨other, written, receiver⟩ = .ok received after →
        received = frames.take count
  all : ∀ later other, ∃ after,
    recvAll noise closed frames.length ⟨other, bytes ++ later, receiver⟩ = .ok frames after

theorem delivers_cons {noise : Noise σ} {closed : String} {frame front back : Bytes}
    {frames : List Bytes} {receiver middle : σ}
    (first : ∀ other rest, recv noise closed ⟨other, front ++ rest, receiver⟩ =
      .ok frame ⟨other, rest, middle⟩)
    (others : Delivers noise closed frames back middle) :
    Delivers noise closed (frame :: frames) (front ++ back) receiver := by
  constructor
  · intro later written part count few other received after got
    cases count with
    | zero =>
        cases got
        rfl
    | succ count =>
        rw [recvAll, bind_apply] at got
        cases opened : recv noise closed ⟨other, written, receiver⟩ with
        | error error next =>
            rw [opened] at got
            cases got
        | ok found next =>
            rw [opened] at got
            dsimp only at got
            rw [bind_apply] at got
            obtain ⟨more, split⟩ := part
            have extended := recv_extends opened more
            rw [split, List.append_assoc, first other (back ++ later)] at extended
            have rest := congrArg (fun outcome => (finalState outcome).inbox) extended
            have state := congrArg (fun outcome => (finalState outcome).noise) extended
            have kept := congrArg (fun outcome => (finalState outcome).sent) extended
            have same : frame = found := by
              injection extended
            dsimp only [final_state_ok] at rest state kept
            have there : next = ⟨other, next.inbox, middle⟩ := by
              rw [state, kept]
            cases tail : recvAll noise closed count next with
            | error error last =>
                rw [tail] at got
                cases got
            | ok frames' last =>
                rw [tail] at got
                cases got
                rw [there] at tail
                have within := others.part later next.inbox ⟨more, rest.symm⟩ count
                  (Nat.le_of_succ_le_succ few) other frames' _ tail
                rw [List.take_succ_cons, ← within, same]
  · intro later other
    obtain ⟨after, got⟩ := others.all later other
    refine ⟨after, ?_⟩
    rw [List.length_cons, recvAll, bind_apply, List.append_assoc, first other (back ++ later)]
    dsimp only
    rw [bind_apply, got]
    rfl

/-- What is sent is what a receiver gets. -/
theorem sent_delivers {noise : Noise σ} {paired : σ → σ → Prop} (inverts : noise.Inverts paired)
    (closed : String) (frames : List Bytes) (small : ∀ frame ∈ frames, frame.length < 2 ^ 32)
    (sender receiver : σ) (pair : paired sender receiver) (sent inbox : Bytes) :
    ∃ bytes sender', sendAll noise frames ⟨sent, inbox, sender⟩ =
        .ok () ⟨sent ++ bytes, inbox, sender'⟩ ∧
      Delivers noise closed frames bytes receiver := by
  induction frames generalizing sender receiver sent with
  | nil =>
      refine ⟨[], sender, ?_, ?_, ?_⟩
      · rw [List.append_nil]
        rfl
      · intro later written part count few other received after got
        have none : count = 0 := Nat.le_zero.mp few
        rw [none] at got ⊢
        cases got
        rfl
      · exact fun later other => ⟨_, rfl⟩
  | cons frame frames ih =>
      obtain ⟨first, others⟩ := List.forall_mem_cons.mp small
      obtain ⟨front, sender₁, receiver₁, sends, opens, again⟩ :=
        send_segments_opens inverts (segments (putU32 frame.length ++ frame))
          (fun seg member => (segments_sizes _ seg member).2) sender receiver pair sent inbox
      obtain ⟨back, sender₂, later, delivers⟩ := ih others sender₁ receiver₁ again (sent ++ front)
      refine ⟨front ++ back, sender₂, ?_, ?_⟩
      · rw [← List.append_assoc, ← later, sendAll, bind_apply, send, sends]
      · exact delivers_cons (fun other rest => recv_opens opens closed other rest first) delivers

/-! ## Through a tunnel -/

variable (rt : Runtime)

/-- All that the end writes whose bytes a direction takes. -/
def Service.source (relay : Service) (task : TaskId) (toServer : Bool) : Bytes :=
  if toServer then relay.recv task else relay.answer task

def Tunnel.pump (tunnel : Tunnel) (toServer : Bool) : Pump :=
  if toServer then tunnel.toServer else tunnel.toDialer

theorem pump_of_joins {tunnel : Tunnel} {dialer server : Bytes} (joins : tunnel.Joins dialer server)
    (toServer : Bool) : (tunnel.pump toServer).InOrder ∧
      (tunnel.pump toServer).source = if toServer then dialer else server := by
  cases toServer with
  | true => exact ⟨joins.toServer, joins.fromDialer⟩
  | false => exact ⟨joins.toDialer, joins.fromServer⟩

theorem written_of_ended {pump : Pump} (order : pump.InOrder) (ended : pump.flow = .ended) :
    pump.written = pump.source := by
  have whole := order.all (by rw [ended]; decide)
  rwa [order.ended ended, List.append_nil] at whole

/-- Either end of a tunnel writes its handshake, then sealed frames, then what it will. In whatever
pieces the relay forwards it, the other end receives the first of these frames and no others, and
all of them where the relay came to the end. -/
theorem relayed_frames_arrive {noise : Noise σ} {paired : σ → σ → Prop}
    (inverts : noise.Inverts paired) (closed : String) (frames : List Bytes)
    (small : ∀ frame ∈ frames, frame.length < 2 ^ 32) (sender receiver : σ)
    (pair : paired sender receiver) (handshake inbox : Bytes) :
    ∃ bytes sender', sendAll noise frames ⟨handshake, inbox, sender⟩ =
        .ok () ⟨handshake ++ bytes, inbox, sender'⟩ ∧
      ∀ (events : List Event) (task : TaskId) (tunnel : Tunnel) (toServer : Bool)
        (later other : Bytes), (run (serve rt) Service.start events).tunnel task = some tunnel →
        (run (serve rt) Service.start events).source task toServer =
          handshake ++ (bytes ++ later) →
        let pump := tunnel.pump toServer
        let arrived := pump.written.drop handshake.length
        (handshake.length ≤ pump.written.length → ∀ count ≤ frames.length, ∀ received after,
          recvAll noise closed count ⟨other, arrived, receiver⟩ = .ok received after →
            received = frames.take count) ∧
        (pump.flow = .ended → ∃ after,
          recvAll noise closed frames.length ⟨other, arrived, receiver⟩ = .ok frames after) := by
  obtain ⟨bytes, sender', sends, delivers⟩ :=
    sent_delivers inverts closed frames small sender receiver pair handshake inbox
  refine ⟨bytes, sender', sends, ?_⟩
  intro events task tunnel toServer later other there source pump arrived
  obtain ⟨_, _, _, _, _, joins⟩ := joins_of_tunnel rt (agrees_run rt events task) there
  obtain ⟨order, from_⟩ := pump_of_joins joins toServer
  have whole : pump.source = handshake ++ (bytes ++ later) := from_.trans source
  constructor
  · intro begun count few received after got
    refine delivers.part later arrived ?_ count few other received after got
    obtain ⟨more, split⟩ := order.part
    refine ⟨more, ?_⟩
    have rest := congrArg (List.drop handshake.length) (split.trans whole)
    rwa [List.drop_append_of_le_length begun, List.drop_left] at rest
  · intro ended
    have same : arrived = bytes ++ later := by
      change pump.written.drop handshake.length = _
      rw [written_of_ended order ended, whole, List.drop_left]
    rw [same]
    exact delivers.all later other

end Frames

theorem relayed_frames_sample :
    ∃ bytes sender', sendAll countingNoise [[], [7, 8]] ⟨[1, 2], [], 0⟩ =
        .ok () ⟨[1, 2] ++ bytes, [], sender'⟩ ∧
      ∀ (events : List Event) (task : TaskId) (tunnel : Tunnel) (toServer : Bool)
        (later other : Bytes),
        (run (serve sampleRuntime) Service.start events).tunnel task = some tunnel →
        (run (serve sampleRuntime) Service.start events).source task toServer =
          [1, 2] ++ (bytes ++ later) →
        let pump := tunnel.pump toServer
        let arrived := pump.written.drop 2
        (2 ≤ pump.written.length → ∀ count ≤ 2, ∀ received after,
          recvAll countingNoise "connection lost" count ⟨other, arrived, 0⟩ = .ok received after →
            received = [[], [7, 8]].take count) ∧
        (pump.flow = .ended → ∃ after,
          recvAll countingNoise "connection lost" 2 ⟨other, arrived, 0⟩ =
            .ok [[], [7, 8]] after) :=
  relayed_frames_arrive sampleRuntime counting_inverts "connection lost" [[], [7, 8]] (by decide)
    0 0 rfl [1, 2] []

end HorizonOs.Constellation.Relay
