import HorizonOs.Weave.Replay

/-!
# The portal

How a confined principal gets a file or a socket: it writes one request line, the
broker side parses it, asks the broker for access, opens what the lease names and
passes the descriptor back.
-/

namespace HorizonOs.Cells

open HorizonOs.Lib.ByteCodec HorizonOs.Lib.Text HorizonOs.Lib.Runs
open HorizonOs.Lifestream HorizonOs.Weave

set_option autoImplicit false

inductive Error where
  | io (message : String)
  | confine (message : String)
  deriving DecidableEq

def Error.display : Error → String
  | .io message => s!"io: {message}"
  | .confine message => s!"confine: {message}"

/-- An open descriptor: a file with the access it was opened for, or a socket. -/
inductive Fd where
  | file (path : Bytes) (read write : Bool)
  | socket (host : String) (port : UInt16)
  deriving DecidableEq

/-- What the operating system answers when the broker opens and connects. -/
structure Os where
  openFile : Bytes → Bool → Bool → Except String Unit
  connect : String → UInt16 → Except String Unit

/-- Turn a lease into an open object, its flags matching the rights. -/
def materialize (os : Os) (lease : Lease) : Except Error Fd :=
  match lease.resource with
  | .file path =>
      let write := lease.rights.contains Rights.WRITE
      let read := lease.rights.contains Rights.READ || !write
      match os.openFile path read write with
      | .ok () => .ok (.file path read write)
      | .error message => .error (.io message)
  | .net host port =>
      match os.connect host port with
      | .ok () => .ok (.socket host port)
      | .error message => .error (.io message)
  | other => .error (.confine s!"cannot materialize {other.display}")

/-! ## Serving a request -/

/-- One end of the socket: the message that arrives, if receiving works, and
whether sending does. -/
structure Socket where
  received : Except String Bytes
  sendFault : Option String

/-- A received message is cut off at the size of the buffer. -/
def recvBuffer : Nat := 512

def recvFds (socket : Socket) : Except Error Bytes :=
  match socket.received with
  | .ok message => .ok (message.take recvBuffer)
  | .error message => .error (.io message)

inductive Reply where
  | ok (fd : Fd)
  | err (text : String)
  deriving DecidableEq

/-- The request a line makes: its text, its resource if it parses, and its rights,
none when they do not parse. -/
def requestOf (line : Bytes) : String × Option Resource × Rights :=
  let text := trim (fromUtf8Lossy line)
  let (resourceText, rightsText) :=
    match splitOnce (· = ' ') text.toList with
    | some (left, right) => (String.ofList left, String.ofList right)
    | none => (text, "")
  (text, Resource.parse resourceText, (Rights.parse rightsText).getD Rights.NONE)

section Serving

variable {σ : Type}

/-- What the handler keeps, and the reply that was passed back. -/
structure Exchange (σ : Type) where
  kept : σ
  passed : Option Reply

def sendFds (socket : Socket) (reply : Reply) : EStateM Error (Exchange σ) Unit :=
  fun exchange =>
    match socket.sendFault with
    | some message => .error (.io message) exchange
    | none => .ok () { exchange with passed := some reply }

/-- Run the handler on what it keeps. -/
def callHandler (action : EStateM Error σ Fd) (exchange : Exchange σ) :
    Except Error Fd × Exchange σ :=
  match action exchange.kept with
  | .ok fd kept => (.ok fd, { exchange with kept })
  | .error error kept => (.error error, { exchange with kept })

/-- Read one request, decide it through the handler and answer it. -/
def serveOnce (socket : Socket) (handler : Resource → Rights → EStateM Error σ Fd) :
    EStateM Error (Exchange σ) Unit := fun exchange =>
  match recvFds socket with
  | .error error => .error error exchange
  | .ok line =>
      let (text, resource, rights) := requestOf line
      let (made, handled) :=
        match resource with
        | some wanted => callHandler (handler wanted rights) exchange
        | none => (.error (.confine s!"unparseable request: {text}"), exchange)
      match made with
      | .ok fd => sendFds socket (.ok fd) handled
      | .error error =>
          -- an answer that cannot be sent changes nothing about the refusal
          .error error (finalState (sendFds socket (.err s!"err {error.display}\n") handled))

end Serving

/-- The handler of the broker side: weave's access check, then `materialize`. -/
def brokerHandler (os : Os) (draw : Draw) (cap : Capability) (resource : Resource)
    (rights : Rights) : EStateM Error Session Fd := fun session =>
  match access draw cap resource rights session with
  | .error error after => .error (.confine error.display) after
  | .ok lease after =>
      match materialize os lease with
      | .ok fd => .ok fd after
      | .error error => .error error after

/-! ## What a served descriptor is -/

/-- A file that is passed back was asked for in the line, admitted by the broker,
and opened for what the rights asked for come to. -/
theorem served_file (os : Os) (draw : Draw) (cap : Capability) (socket : Socket)
    (session : Session) (path : Bytes) (read write : Bool)
    (passed : (finalState (serveOnce socket (brokerHandler os draw cap) ⟨session, none⟩)).passed =
      some (.ok (.file path read write))) :
    ∃ line text rights lease after, recvFds socket = .ok line ∧
      requestOf line = (text, some (.file path), rights) ∧
      access draw cap (.file path) rights session = .ok lease after ∧
      write = rights.contains Rights.WRITE ∧
      read = (rights.contains Rights.READ || !rights.contains Rights.WRITE) := by
  unfold serveOnce at passed
  cases arrived : recvFds socket with
  | error error =>
      rw [arrived] at passed
      cases passed
  | ok line =>
      rw [arrived] at passed
      obtain ⟨text, resource, rights, asked⟩ : ∃ text resource rights,
          requestOf line = (text, resource, rights) := ⟨_, _, _, rfl⟩
      simp only [asked] at passed
      cases resource with
      | none =>
          simp only [sendFds] at passed
          split at passed <;> cases passed
      | some wanted =>
          simp only [callHandler, brokerHandler] at passed
          cases admitted : access draw cap wanted rights session with
          | error error after =>
              simp only [admitted, sendFds] at passed
              split at passed <;> cases passed
          | ok lease after =>
              obtain ⟨_, rfl⟩ := access_admitted session after draw cap wanted rights lease admitted
              simp only [admitted] at passed
              cases opened : materialize os ⟨cap.grant, wanted, rights⟩ with
              | error error =>
                  simp only [opened, sendFds] at passed
                  split at passed <;> cases passed
              | ok fd =>
                  simp only [opened, sendFds] at passed
                  split at passed
                  · cases passed
                  · cases passed
                    cases wanted with
                    | file other =>
                        simp only [materialize] at opened
                        split at opened
                        · cases opened
                          exact ⟨line, text, rights, _, after, rfl, asked, admitted, rfl, rfl⟩
                        · cases opened
                    | net host port =>
                        simp only [materialize] at opened
                        split at opened <;> cases opened
                    | device name => cases opened
                    | service name action => cases opened

theorem contains_trans (large middle small : Rights) (outer : large.contains middle = true)
    (inner : middle.contains small = true) : large.contains small = true := by
  rw [Rights.contains_iff] at *
  exact fun i set => outer i (inner i set)

/-- A file passed back to a cell is open for no more than the grant allows exactly
when the grant carries READ or the line asked for WRITE. -/
theorem served_within_grant_iff (os : Os) (draw : Draw) (cap : Capability) (socket : Socket)
    (session : Session) (state : GrantState) (line : Bytes) (path : Bytes) (read write : Bool)
    (granted : session.broker.grants.lookup cap.grant = some state)
    (arrived : recvFds socket = .ok line)
    (passed : (finalState (serveOnce socket (brokerHandler os draw cap) ⟨session, none⟩)).passed =
      some (.ok (.file path read write))) :
    ((read = true → state.grant.rights.contains Rights.READ = true) ∧
        (write = true → state.grant.rights.contains Rights.WRITE = true)) ↔
      (state.grant.rights.contains Rights.READ = true ∨
        (requestOf line).2.2.contains Rights.WRITE = true) := by
  obtain ⟨other, text, rights, lease, after, same, asked, admitted, rfl, rfl⟩ :=
    served_file os draw cap socket session path read write passed
  rw [arrived] at same
  cases same
  obtain ⟨admitted, _⟩ := access_admitted session after draw cap _ rights lease admitted
  obtain ⟨known, found, _, _, _, _, _, allowed⟩ := refusal_none _ _ _ _ _ admitted
  rw [granted] at found
  cases found
  rw [asked]
  have writes : rights.contains Rights.WRITE = true →
      state.grant.rights.contains Rights.WRITE = true := contains_trans _ _ _ allowed
  have reads : rights.contains Rights.READ = true →
      state.grant.rights.contains Rights.READ = true := contains_trans _ _ _ allowed
  constructor
  · rintro ⟨readable, _⟩
    cases asksWrite : rights.contains Rights.WRITE with
    | true => exact .inr rfl
    | false => exact .inl (readable (by simp [asksWrite]))
  · rintro (readable | asksWrite)
    · exact ⟨fun _ => readable, writes⟩
    · refine ⟨fun opened => ?_, writes⟩
      simp only [asksWrite, Bool.not_true, Bool.or_false] at opened
      exact reads opened

/-! ## A request on a write-only grant -/

/-- Every file opens and every host answers. -/
def willingOs : Os := ⟨fun _ _ _ => .ok (), fun _ _ => .ok ()⟩

/-- A broker that has granted `/data` with these rights. -/
def grantedSession (rights : Rights) : Session :=
  callStep ⟨sampleBroker, Device.fresh, []⟩
    (sampleDraw 10 1, .grant "app" (samplePath "/data") rights Limits.none)

/-- What a cell gets back for this line. -/
def served (rights : Rights) (line : String) : Option Reply :=
  (finalState (serveOnce ⟨.ok (utf8 line), none⟩
    (brokerHandler willingOs (sampleDraw 11 2) ⟨sampleId 1, sampleMaster 3⟩)
    ⟨grantedSession rights, none⟩)).passed

def grantsRight (session : Session) (id : GrantId) (right : Rights) : Bool :=
  match session.broker.grants.lookup id with
  | some state => state.grant.rights.contains right
  | none => false

/-- A cell that may read asks to read. -/
theorem read_request_within_grant :
    ∃ state, (grantedSession Rights.READ).broker.grants.lookup (sampleId 1) = some state ∧
      ((true = true → state.grant.rights.contains Rights.READ = true) ∧
        (false = true → state.grant.rights.contains Rights.WRITE = true)) := by
  have readable : grantsRight (grantedSession Rights.READ) (sampleId 1) Rights.READ = true := by
    decide +kernel
  have passed : served Rights.READ "file:/data/x r\n" = some (.ok (.file (utf8 "/data/x") true false)) := by
    decide +kernel
  cases granted : (grantedSession Rights.READ).broker.grants.lookup (sampleId 1) with
  | none =>
      rw [grantsRight, granted] at readable
      contradiction
  | some state =>
      rw [grantsRight, granted] at readable
      have within := served_within_grant_iff willingOs (sampleDraw 11 2)
        ⟨sampleId 1, sampleMaster 3⟩ ⟨.ok (utf8 "file:/data/x r\n"), none⟩
        (grantedSession Rights.READ) state ((utf8 "file:/data/x r\n").take recvBuffer)
        (utf8 "/data/x") true false granted rfl passed
      exact ⟨state, rfl, within.mpr (.inl readable)⟩

/-- A cell that may only write leaves the rights out, and gets to read. -/
theorem write_only_grant_served_readable :
    grantsRight (grantedSession Rights.WRITE) (sampleId 1) Rights.READ = false ∧
      served Rights.WRITE "file:/data/x\n" = some (.ok (.file (utf8 "/data/x") true false)) := by
  decide +kernel

end HorizonOs.Cells
