import HorizonOs.Constellation.Wire
import HorizonOs.Lib.Meeting

/-!
# The relay

A peer binds its connection under a fingerprint, and a dialer that asks for the fingerprint is
joined to a fresh stream of that connection. A task serves each client; tasks take their steps in
any order, and connections close at any time. What is forwarded is not looked at.
-/

namespace HorizonOs.Constellation.Relay

open HorizonOs.Lib.ByteCodec HorizonOs.Lib.Meeting HorizonOs.Lib.Runs HorizonOs.Lib.Text

set_option autoImplicit false

def maxCtl : Nat := 4 * 1024

def copyBuf : Nat := 64 * 1024

/-! ## Messages -/

inductive Req where
  /-- A serving peer offers itself under a fingerprint. -/
  | bind (fp : String)
  | connect (fp : String)
  deriving DecidableEq

inductive Resp where
  | bound
  /-- Forwarded bytes follow on the same stream. -/
  | connected
  | noPeer
  | err (message : String)
  deriving DecidableEq

def Req.encode : Req → Bytes
  | .bind fp => [1] ++ putStr fp
  | .connect fp => [2] ++ putStr fp

def Resp.encode : Resp → Bytes
  | .bound => [1]
  | .connected => [2]
  | .noPeer => [3]
  | .err message => [4] ++ putStr message

section Messages

variable (rt : Runtime)

def readReqBody (tag : UInt8) : Reader Error Req :=
  if tag = 1 then do
    let fp ← readString rt
    pure (.bind fp)
  else if tag = 2 then do
    let fp ← readString rt
    pure (.connect fp)
  else throw (.net s!"bad relay request tag {tag}")

def readReq : Reader Error Req := do
  let tag ← takeU8 shortFrame
  readReqBody rt tag

def Req.decode (buffer : Bytes) : Except Error Req := (readReq rt buffer).map Prod.fst

def readRespBody (tag : UInt8) : Reader Error Resp :=
  if tag = 1 then pure .bound
  else if tag = 2 then pure .connected
  else if tag = 3 then pure .noPeer
  else if tag = 4 then do
    let message ← readString rt
    pure (.err message)
  else throw (.net s!"bad relay response tag {tag}")

def readResp : Reader Error Resp := do
  let tag ← takeU8 shortFrame
  readRespBody rt tag

def Resp.decode (buffer : Bytes) : Except Error Resp := (readResp rt buffer).map Prod.fst

/-- What `write_ctl` writes. -/
def writeCtl (bytes : Bytes) : Except Error Bytes :=
  if bytes.length < 2 ^ 32 then .ok (putU32 bytes.length ++ bytes)
  else .error (.net "out of range integral type conversion attempted")

/-- `read_ctl`: what stands behind the frame is left on the stream. -/
def readCtl : Reader Error Bytes := do
  let length ← takeU32 (.net rt.closed)
  if maxCtl < length.toNat then throw (.net "relay control frame too large")
  else take (.net rt.closed) length.toNat

end Messages

/-! ## The registry -/

abbrev ConnId := Nat

abbrev TaskId := Nat

abbrev Registry := Board String ConnId Unit

def Registry.bind (reg : Registry) (fp : String) (conn : ConnId) : Registry := post reg fp conn ()

def Registry.unbind (reg : Registry) (fp : String) (id : ConnId) : Registry := drop reg fp id

def Registry.peers (reg : Registry) (fp : String) : List ConnId :=
  (waiters reg fp).map Waiter.conn

/-! ## One direction of a splice -/

inductive Flow where
  | running
  /-- The source came to its end. -/
  | ended
  /-- A read or a write failed. -/
  | broken
  deriving DecidableEq

structure Pump where
  /-- All that is ever written on the stream that is read. -/
  source : Bytes
  unread : Bytes
  written : Bytes
  flow : Flow

def Pump.start (source : Bytes) : Pump := ⟨source, source, [], .running⟩

/-- A turn of the loop: as much as a read gives is written, or a part of it where that fails. -/
def Pump.turn (pump : Pump) (chunk : Nat) (cut : Option Nat) : Pump :=
  let count := min chunk copyBuf
  let buf := pump.unread.take count
  match pump.flow, cut with
  | .running, none =>
      { pump with unread := pump.unread.drop count, written := pump.written ++ buf }
  | .running, some some_ =>
      { pump with
        unread := pump.unread.drop count
        written := pump.written ++ buf.take some_
        flow := .broken }
  | _, _ => pump

/-- The source ends where all of it is read, and is lost before. -/
def Pump.stop (pump : Pump) (clean : Bool) : Pump :=
  match pump.flow with
  | .running => { pump with flow := if clean && pump.unread.isEmpty then .ended else .broken }
  | _ => pump

structure Tunnel where
  toServer : Pump
  toDialer : Pump

/-! ## The tasks -/

abbrev Desk := Point String ConnId Unit TaskId

structure Service where
  desk : Desk
  /-- What a client writes behind its request. -/
  recv : TaskId → Bytes
  /-- What has been written for a client before anything is forwarded. -/
  send : TaskId → Bytes
  /-- What the serving peer writes on the stream that is opened to it. -/
  answer : TaskId → Bytes
  tunnel : TaskId → Option Tunnel

inductive Event where
  /-- A client's first stream, with all that the client writes on it. -/
  | request (task : TaskId) (conn : ConnId) (stream : Bytes)
  /-- The control frame a task is at is written, or the first bytes of it. -/
  | writes (task : TaskId) (cut : Option Nat)
  | opens (task : TaskId) (answer : Bytes)
  | closes (conn : ConnId)
  | withdraws (task : TaskId)
  | pumps (task : TaskId) (toServer : Bool) (chunk : Nat) (cut : Option Nat)
  | stops (task : TaskId) (toServer : Bool) (clean : Bool)

def meet : Desk → Lib.Meeting.Event String ConnId TaskId → Desk := step (fun _ => ()) 1

def asksFor : Req → Role String
  | .bind fp => .waits fp
  | .connect fp => .calls fp

/-- The frame that a task writes next. -/
def reply : Phase String ConnId Unit → Option Resp
  | .announcing _ => some .bound
  | .calling _ [] => some .noPeer
  | .reached _ _ _ => some .connected
  | _ => none

/-- What gets written of a frame, and whether it is all of it. -/
def written (resp : Resp) (cut : Option Nat) : Bytes × Bool :=
  match writeCtl resp.encode, cut with
  | .ok frame, none => (frame, true)
  | .ok frame, some count => (frame.take (min count (frame.length - 1)), false)
  | .error _, _ => ([], false)

def Tunnel.move (tunnel : Tunnel) (toServer : Bool) (moves : Pump → Pump) : Tunnel :=
  if toServer then { tunnel with toServer := moves tunnel.toServer }
  else { tunnel with toDialer := moves tunnel.toDialer }

def Service.forward (relay : Service) (task : TaskId) (moves : Tunnel → Tunnel) : Service :=
  { relay with
    tunnel := Function.update relay.tunnel task ((relay.tunnel task).map moves) }

section Serving

variable (rt : Runtime)

/-- The request on a stream, and what stands behind it. -/
def readRequest (stream : Bytes) : Except Error (Req × Bytes) := do
  let (buffer, rest) ← readCtl rt stream
  let req ← Req.decode rt buffer
  pure (req, rest)

/-- `serve_control`, step by step. -/
def serve (relay : Service) : Event → Service
  | .request task conn stream =>
      match relay.desk.jobs task, readRequest rt stream with
      | none, .ok (req, rest) =>
          { relay with
            desk := meet relay.desk ((asksFor req).enter task conn)
            recv := Function.update relay.recv task rest }
      | _, _ => relay
  | .writes task cut =>
      match relay.desk.jobs task with
      | none => relay
      | some job =>
          match reply job.phase with
          | none => relay
          | some resp =>
              let wrote := written resp cut
              { relay with
                desk := meet relay.desk (.wrote task wrote.2)
                send := Function.update relay.send task (relay.send task ++ wrote.1)
                tunnel :=
                  if resp = .connected ∧ wrote.2 = true then
                    Function.update relay.tunnel task
                      (some ⟨Pump.start (relay.recv task), Pump.start (relay.answer task)⟩)
                  else relay.tunnel }
  | .opens task answer =>
      match relay.desk.jobs task with
      | some ⟨_, .calling _ (_ :: _)⟩ =>
          { relay with
            desk := meet relay.desk (.opened task)
            answer := Function.update relay.answer task answer }
      | _ => relay
  | .closes conn => { relay with desk := meet relay.desk (.closes conn) }
  | .withdraws task => { relay with desk := meet relay.desk (.withdraws task) }
  | .pumps task toServer chunk cut =>
      relay.forward task fun tunnel => tunnel.move toServer fun pump => pump.turn chunk cut
  | .stops task toServer clean =>
      relay.forward task fun tunnel => tunnel.move toServer fun pump => pump.stop clean

def Service.start : Service where
  desk := Point.start
  recv _ := []
  send _ := []
  answer _ := []
  tunnel _ := none

/-! ## What the clients make of it -/

/-- All that a client has been written. -/
def Service.stream (relay : Service) (task : TaskId) : Bytes :=
  relay.send task ++ ((relay.tunnel task).elim [] fun tunnel => tunnel.toDialer.written)

def readReply (stream : Bytes) : Except Error (Resp × Bytes) := do
  let (buffer, rest) ← readCtl rt stream
  let resp ← Resp.decode rt buffer
  pure (resp, rest)

def unexpected : Resp → Error
  | .err message => .net message
  | _ => .net "unexpected reply from relay"

/-- `bind`, once its request is written. -/
def bind (stream : Bytes) : Except Error Unit := do
  let (resp, _) ← readReply rt stream
  match resp with
  | .bound => pure ()
  | other => throw (unexpected other)

/-- `connect`, once its request is written: the tunnel, or the error. -/
def connect (stream : Bytes) : Except Error Bytes := do
  let (resp, rest) ← readReply rt stream
  match resp with
  | .connected => pure rest
  | .noPeer => throw (.net "relay has no peer of this identity")
  | other => throw (unexpected other)

end Serving

/-! ## Control frames -/

section Frames

variable (rt : Runtime)

theorem decodes_ctl (bytes : Bytes) (short : bytes.length ≤ maxCtl) :
    Decodes (readCtl rt) (putU32 bytes.length ++ bytes) bytes := by
  have small : bytes.length < 2 ^ 32 := short.trans_lt (by decide)
  refine (decodes_u32 (Error.net rt.closed) _).bind ?_
  rw [put_u32_to_nat small, if_neg (Nat.not_lt.mpr short)]
  exact decodes_take (Error.net rt.closed) bytes

/-- A frame of which the end is missing is not read. -/
theorem cut_ctl (bytes : Bytes) (short : bytes.length ≤ maxCtl) (count : Nat)
    (less : count < 4 + bytes.length) :
    readCtl rt ((putU32 bytes.length ++ bytes).take count) = .error (.net rt.closed) := by
  have size := length_put_u32 bytes.length
  by_cases header : count < 4
  · have few : ((putU32 bytes.length ++ bytes).take count).length < 4 := by
      rw [List.length_take, List.length_append]
      omega
    have failed : takeU32 (Error.net rt.closed) ((putU32 bytes.length ++ bytes).take count) =
        .error (.net rt.closed) := by
      rw [takeU32]
      change (take (Error.net rt.closed) 4 _).bind _ = _
      rw [take, if_pos few]
      rfl
    change (takeU32 _ _).bind _ = _
    rw [failed]
    rfl
  · have there : 4 ≤ count := Nat.not_lt.mp header
    have small : bytes.length < 2 ^ 32 := short.trans_lt (by decide)
    have split : (putU32 bytes.length ++ bytes).take count =
        putU32 bytes.length ++ bytes.take (count - 4) := by
      rw [List.take_append, size, List.take_of_length_le (by omega)]
    have few : (bytes.take (count - 4)).length < bytes.length := by
      rw [List.length_take]
      omega
    rw [split]
    refine (decodes_u32 (Error.net rt.closed) _).bind_error ?_
    rw [put_u32_to_nat small, if_neg (Nat.not_lt.mpr short), take, if_pos few]

/-- The three replies of a relay are a byte each. -/
def Resp.Plain : Resp → Prop
  | .err _ => False
  | _ => True

def frame (resp : Resp) : Bytes := putU32 resp.encode.length ++ resp.encode

theorem length_plain {resp : Resp} (plain : resp.Plain) : resp.encode.length = 1 := by
  cases resp with
  | err message => exact plain.elim
  | bound => rfl
  | connected => rfl
  | noPeer => rfl

theorem write_ctl_plain {resp : Resp} (plain : resp.Plain) :
    writeCtl resp.encode = .ok (frame resp) := by
  refine if_pos ?_
  rw [length_plain plain]
  decide

theorem written_whole {resp : Resp} (plain : resp.Plain) : written resp none = (frame resp, true) := by
  unfold written
  rw [write_ctl_plain plain]

theorem written_cut {resp : Resp} (plain : resp.Plain) (count : Nat) :
    written resp (some count) = ((frame resp).take (min count ((frame resp).length - 1)), false) := by
  unfold written
  rw [write_ctl_plain plain]

theorem decodes_plain {resp : Resp} (plain : resp.Plain) :
    Decodes (readResp rt) resp.encode resp := by
  cases resp with
  | err message => exact plain.elim
  | bound => exact (decodes_u8 shortFrame 1).bind (t := []) (Decodes.pure Resp.bound)
  | connected => exact (decodes_u8 shortFrame 2).bind (t := []) (Decodes.pure Resp.connected)
  | noPeer => exact (decodes_u8 shortFrame 3).bind (t := []) (Decodes.pure Resp.noPeer)

/-- A client reads the reply that is written, and what is forwarded behind it. -/
theorem read_frame {resp : Resp} (plain : resp.Plain) (more : Bytes) :
    readReply rt (frame resp ++ more) = .ok (resp, more) := by
  have short : resp.encode.length ≤ maxCtl := by
    rw [length_plain plain]
    decide
  have framed := decodes_ctl rt resp.encode short more
  have decoded : Resp.decode rt resp.encode = .ok resp := decode_whole (decodes_plain rt plain)
  refine bind_ok framed ?_
  exact bind_ok decoded rfl

/-- A stream that ends inside the reply. -/
def Cut (send : Bytes) : Prop := readCtl rt send = .error (.net rt.closed)

theorem cut_nil : Cut rt [] := rfl

theorem cut_written {resp : Resp} (plain : resp.Plain) (count : Nat) :
    Cut rt (written resp (some count)).1 := by
  have size : (frame resp).length = 4 + resp.encode.length := by
    rw [frame, List.length_append, length_put_u32]
  rw [written_cut plain]
  refine cut_ctl rt resp.encode ?_ _ ?_
  · rw [length_plain plain]
    decide
  · rw [size]
    omega

theorem read_cut {send : Bytes} (cut : Cut rt send) : readReply rt send = .error (.net rt.closed) := by
  rw [readReply, cut]
  rfl

def Req.fp : Req → String
  | .bind fp => fp
  | .connect fp => fp

theorem decodes_req (req : Req) (fits : StrFits req.fp) : Decodes (readReq rt) req.encode req := by
  cases req with
  | bind fp => exact (decodes_u8 shortFrame 1).bind ((decodes_string rt fp fits).map Req.bind)
  | connect fp => exact (decodes_u8 shortFrame 2).bind ((decodes_string rt fp fits).map Req.connect)

/-- The relay reads the request, and leaves what the client writes behind it. -/
theorem read_request (req : Req) (fits : StrFits req.fp) (short : req.encode.length ≤ maxCtl)
    (more : Bytes) :
    readRequest rt (putU32 req.encode.length ++ req.encode ++ more) = .ok (req, more) := by
  have framed := decodes_ctl rt req.encode short more
  have decoded : Req.decode rt req.encode = .ok req := decode_whole (decodes_req rt req fits)
  refine bind_ok framed ?_
  exact bind_ok decoded rfl

end Frames

end HorizonOs.Constellation.Relay
