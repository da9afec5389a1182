import HorizonOs.Constellation.RendezvousRoundTrip
import HorizonOs.Constellation.Rendezvous
import HorizonOs.Lib.Meeting

/-!
# Hole punching

A rendezvous holds the connections of peers that wait to be punched. For a dialer it opens a stream
back to the first of them that is there, pushes the address it sees the dialer at, and answers with
the address it sees the peer at: both fire at what they are told. Its tasks come and take their
steps in any order, and connections close at any time.
-/

namespace HorizonOs.Constellation.Rendezvous.Punch

open HorizonOs.Lib.ByteCodec HorizonOs.Lib.Meeting HorizonOs.Lib.Runs

set_option autoImplicit false

abbrev ConnId := Nat

abbrev TaskId := Nat

/-! ## The registry -/

abbrev Pending := Board String ConnId SocketAddr

def punchWait (pending : Pending) (fp : String) (id : ConnId) (observed : SocketAddr) : Pending :=
  post pending fp id observed

def punchDrop (pending : Pending) (fp : String) (id : ConnId) : Pending := drop pending fp id

def punchWaiters (pending : Pending) (fp : String) : List (ConnId × SocketAddr) :=
  (waiters pending fp).map fun waiter => (waiter.conn, waiter.info)

/-! ## The broker -/

abbrev Desk := Point String ConnId SocketAddr TaskId

structure Broker where
  desk : Desk
  /-- What a request has been answered, once all of it is written. -/
  replies : TaskId → Option Bytes
  /-- What has been pushed over a waiting connection, on a stream each. -/
  pushes : ConnId → List Bytes

inductive Event where
  | request (task : TaskId) (conn : ConnId) (bytes : Bytes)
  /-- The message a task is at is written and its stream finished, or cannot be. -/
  | writes (task : TaskId) (success : Bool)
  | opens (task : TaskId)
  | closes (conn : ConnId)
  | withdraws (task : TaskId)

/-- The requests that a task is kept for; the others are answered from the leases. -/
def asksFor : Req → Option (Role String)
  | .punchWait fp => some (.waits fp)
  | .punchConnect fp => some (.calls fp)
  | _ => none

section Serving

variable (rt : Runtime) (tooLong : String) (observed : ConnId → SocketAddr)

/-- The message a task writes next, over the connection it opened a stream on or to its client. -/
def outgoing (job : Job String ConnId SocketAddr) : Option (Option ConnId × Resp) :=
  match job.phase with
  | .announcing _ => some (none, .punchWaiting)
  | .calling _ [] => some (none, .punchNoPeer)
  | .reached _ peer 2 => some (some peer.conn, .punchGo (observed job.conn))
  | .reached _ peer 1 => some (none, .punchGo peer.info)
  | _ => none

def meet : Desk → Lib.Meeting.Event String ConnId TaskId → Desk := step observed 2

/-- The two punch arms of `serve_stream`, step by step. -/
def serve (broker : Broker) : Event → Broker
  | .request task conn bytes =>
      match readMessage rt tooLong bytes with
      | .error _ => broker
      | .ok req =>
          match asksFor req with
          | none => broker
          | some role => { broker with desk := meet observed broker.desk (role.enter task conn) }
  | .writes task success =>
      match (broker.desk.jobs task).bind (outgoing observed) with
      | none => broker
      | some (target, resp) =>
          { desk := meet observed broker.desk (.wrote task success)
            replies :=
              if success = true ∧ target = none then
                Function.update broker.replies task (some resp.encode)
              else broker.replies
            pushes := fun conn =>
              if success = true ∧ target = some conn then broker.pushes conn ++ [resp.encode]
              else broker.pushes conn }
  | .opens task => { broker with desk := meet observed broker.desk (.opened task) }
  | .closes conn => { broker with desk := meet observed broker.desk (.closes conn) }
  | .withdraws task => { broker with desk := meet observed broker.desk (.withdraws task) }

def Broker.start : Broker where
  desk := Point.start
  replies _ := none
  pushes _ := []

/-! ## What the peers make of it -/

def maxCtl : Nat := 4 * 1024

/-- The reply to a request, where its stream was finished. -/
def readReply (reply : Option Bytes) : Except Error Resp :=
  match reply with
  | none => .error (.net rt.closed)
  | some bytes => if maxCtl < bytes.length then .error (.net tooLong) else Resp.decode rt bytes

/-- `listen`, until it may wait. -/
def listen (reply : Option Bytes) : Except Error Unit := do
  let resp ← readReply rt tooLong reply
  match resp with
  | .punchWaiting => pure ()
  | other => throw (unexpected other)

/-- The address that a push has a listener fire its probe at. -/
def probe (push : Bytes) : Option SocketAddr :=
  match readReply rt tooLong (some push) with
  | .ok (.punchGo dialer) => some dialer
  | _ => none

/-- `connect`, up to the address that it fires its connection at. -/
def connect (reply : Option Bytes) : Except Error SocketAddr := do
  let resp ← readReply rt tooLong reply
  match resp with
  | .punchGo addr => pure addr
  | .punchNoPeer => throw (.net "rendezvous has no peer waiting to punch")
  | other => throw (unexpected other)

/-! ## The replies -/

/-- The replies of a broker are short, and come back up to what an address leaves out. -/
theorem read_reply_encode (resp : Resp) (short : resp.encode.length ≤ maxCtl) (fits : resp.Fits) :
    readReply rt tooLong (some resp.encode) = .ok resp.plain := by
  rw [readReply, if_neg (Nat.not_lt.mpr short)]
  exact decode_whole (decodes_resp rt resp fits)

theorem read_waiting : readReply rt tooLong (some Resp.punchWaiting.encode) = .ok .punchWaiting :=
  read_reply_encode rt tooLong .punchWaiting (by decide) trivial

theorem read_no_peer : readReply rt tooLong (some Resp.punchNoPeer.encode) = .ok .punchNoPeer :=
  read_reply_encode rt tooLong .punchNoPeer (by decide) trivial

theorem go_short (addr : SocketAddr) : (Resp.punchGo addr).encode.length ≤ maxCtl := by
  have size := put_addr_size addr
  have small : addrSize addr ≤ 19 := by
    cases addr with
    | v4 ip port => exact (by decide : 7 ≤ 19)
    | v6 ip port flowinfo scopeId => exact le_rfl
  rw [Resp.encode, List.length_append, List.length_singleton, size]
  exact (Nat.add_le_add_left small 1).trans (by decide)

theorem read_go (addr : SocketAddr) :
    readReply rt tooLong (some (Resp.punchGo addr).encode) = .ok (.punchGo (plain addr)) :=
  read_reply_encode rt tooLong (.punchGo addr) (go_short addr) trivial

theorem probe_go (addr : SocketAddr) :
    probe rt tooLong (Resp.punchGo addr).encode = some (plain addr) := by
  rw [probe, read_go]

end Serving

end HorizonOs.Constellation.Rendezvous.Punch
