import HorizonOs.Cells.Confinement

/-!
# What the supervisor is told

The second child writes the step that failed to one pipe, the first child turns that and the way the
second one ended into a report on another, and the supervisor reads a status or an error from it.
-/

namespace HorizonOs.Cells

open HorizonOs.Lib.ByteCodec HorizonOs.Lib.Buffer HorizonOs.Lib.Runs HorizonOs.Lib.Triples

set_option autoImplicit false

/-! ## Numbers in a pipe -/

def i32Bytes (value : Int32) : Bytes := encodeLE 4 value.toUInt32.toNat

def i32Of (bytes : Bytes) : Int32 := (UInt32.ofNat (decodeLE bytes)).toInt32

theorem length_i32_bytes (value : Int32) : (i32Bytes value).length = 4 := length_encode_le 4 _

theorem i32_of_bytes (value : Int32) : i32Of (i32Bytes value) = value := by
  have fits : value.toUInt32.toNat < 256 ^ 4 := value.toUInt32.toNat_lt
  rw [i32Of, i32Bytes, decode_encode_le_of_lt 4 _ fits, UInt32.ofNat_toNat,
    Int32.toInt32_toUInt32]

/-! ## The children -/

inductive Ended where
  | exited (code : Int32)
  | signaled (signal : Int32)
  deriving DecidableEq

/-- What becomes of the children, and the texts of errors. -/
structure Fate where
  /-- What a payload comes to, and what it writes where the descriptor for errors is left open. -/
  payload : World → Ended × Bytes
  /-- The second child is killed before this call, by this signal. -/
  killed : Option (Nat × Int32)
  /-- Its end cannot be waited for. -/
  unwaited : Bool
  /-- The first child is gone before it reports. -/
  silent : Bool
  osError : Int32 → String
  errnoText : Int32 → String

/-- Of the code a process ends with, the last eight bits are kept. -/
def exitStatus (code : Int32) : Int32 := (UInt32.ofNat (code.toUInt32.toNat % 256)).toInt32

def emit (step errno : Int32) : Bytes := i32Bytes step ++ i32Bytes errno

def rExited : Int32 := 0
def rSignaled : Int32 := 1
def rSetupErr : Int32 := 2

def writeReport (kind first second : Int32) : Bytes :=
  i32Bytes kind ++ i32Bytes first ++ i32Bytes second

def Ended.status : Ended → Ended
  | .exited code => .exited (exitStatus code)
  | .signaled signal => .signaled signal

/-- What the error pipe holds when the second child is gone, and how it ended. -/
def secondChild (fate : Fate) (err : Int)
    (outcome : EStateM.Result (Int32 × Int32) World Unit) : Bytes × Ended :=
  match fate.killed.filter fun killed => killed.1 ≤ (finalState outcome).calls with
  | some (_, signal) => ([], .signaled signal)
  | none =>
      match outcome with
      | .ok _ world =>
          let (ended, written) := fate.payload world
          (if world.fds.any fun fd => fd.number = err then written else [], ended.status)
      | .error (step, errno) _ => (emit step errno, .exited 127)

/-- The report of an end, and of one that was not waited for. -/
def endReport : Option Ended → Bytes
  | some (.exited code) => writeReport rExited code 0
  | some (.signaled signal) => writeReport rSignaled signal 0
  | none => writeReport rSetupErr sFork 0

/-- One report from the error pipe and the end of the second child. -/
def bridge (pipe : Bytes) (status : Option Ended) : Bytes :=
  let buf := pipe.take 8
  if buf.length = 8 then writeReport rSetupErr (i32Of (buf.take 4)) (i32Of (buf.drop 4))
  else endReport status

section Supervisor

variable (host : Host) (fate : Fate) (stage : Bytes) (cell : Cell) (payload : Payload)

/-- What the report pipe holds when the first child is gone. -/
def firstChild (report : Int) (begun : World) : Bytes :=
  if fate.silent then []
  else
    match cellInit host report begun with
    | .error (step, errno) _ => writeReport rSetupErr step errno
    | .ok err started =>
        let (pipe, ended) :=
          secondChild fate err (buildWorldAndRun host stage cell payload err started)
        bridge pipe (if fate.unwaited then none else some ended)

structure Status where
  code : Option Int32
  signal : Option Int32
  deriving DecidableEq

def Status.success (status : Status) : Bool := status.code = some 0

/-- The text of a step that failed. -/
def failureText (step errno : Int32) : String :=
  if errno > 0 then s!"{stepName step}: {fate.osError errno}" else stepName step

def readReport (report : Bytes) : Except Error Status :=
  let buf := report.take 12
  if buf.length ≠ 12 then .error (.confine "cell died before reporting")
  else
    let kind := i32Of (buf.take 4)
    let first := i32Of ((buf.drop 4).take 4)
    let second := i32Of (buf.drop 8)
    if kind = rExited then .ok ⟨some first, none⟩
    else if kind = rSignaled then .ok ⟨none, some first⟩
    else if kind = rSetupErr then .error (.confine (failureText fate first second))
    else .error (.confine "garbled cell report")

/-- What the first child starts from, and the number it reports to. -/
def spawned (world : World) : Int × World :=
  let (ends, after) := ({ world with calls := world.calls + 1 } : World).openPipe
  (ends.2, closeFd host ends.1 { after with calls := after.calls + 1 })

def spawn (world : World) : Except Error Bytes :=
  match host.fault world.calls with
  | some errno => .error (.io (fate.osError errno))
  | none =>
      match host.fault (world.calls + 1) with
      | some errno => .error (.confine s!"fork init: {fate.errnoText errno}")
      | none =>
          let (report, begun) := spawned host world
          .ok (firstChild host fate stage cell payload report begun)

/-! ### Collecting -/

structure ChildHandle where
  report : Bytes
  collected : Bool

def wait (handle : ChildHandle) : Except Error Status :=
  if handle.collected then .error (.confine "cell already collected")
  else readReport fate handle.report

/-- What looking for the first child without blocking comes to. -/
inductive Probe where
  | alive
  | gone
  /-- Another has reaped it. -/
  | elsewhere
  | failed (errno : Int32)
  deriving DecidableEq

def tryWait (handle : ChildHandle) (probe : Probe) :
    Except Error (Option Status) × ChildHandle :=
  if handle.collected then (.ok none, handle)
  else
    match probe with
    | .alive => (.ok none, handle)
    | .gone => ((readReport fate handle.report).map some, { handle with collected := true })
    | .elsewhere => (.ok none, { handle with collected := true })
    | .failed errno =>
        (.error (.confine s!"try_wait: {fate.errnoText errno}"), handle)

/-- The statuses that polling is told. -/
def polled (handle : ChildHandle) : List Probe → List Status
  | [] => []
  | probe :: rest =>
      let (result, after) := tryWait fate handle probe
      result.toOption.join.toList ++ polled after rest

def run (world : World) : Except Error Status := do
  let report ← spawn host fate stage cell payload world
  wait fate ⟨report, false⟩

/-- Whether an empty cell runs end to end here. -/
def available (world : World) : Bool :=
  match run host fate stage Cell.new .call world with
  | .ok status => status.success
  | .error _ => false

end Supervisor

/-! ## What happened -/

/-- What became of a cell, whoever is told. -/
inductive Happened where
  | failed (step errno : Int32)
  | killed (signal : Int32)
  | ended (world : World) (how : Ended)
  | lost
  | silent

section Telling

variable (host : Host) (fate : Fate) (stage : Bytes) (cell : Cell) (payload : Payload)

def happened (report : Int) (begun : World) : Happened :=
  if fate.silent then .silent
  else
    match cellInit host report begun with
    | .error (step, errno) _ => .failed step errno
    | .ok err started =>
        let outcome := buildWorldAndRun host stage cell payload err started
        match fate.killed.filter fun killed => killed.1 ≤ (finalState outcome).calls with
        | some (_, signal) => if fate.unwaited then .lost else .killed signal
        | none =>
            match outcome with
            | .error (step, errno) _ => .failed step errno
            | .ok _ world => if fate.unwaited then .lost else .ended world (fate.payload world).1

def Happened.told : Happened → Except Error Status
  | .failed step errno => .error (.confine (failureText fate step errno))
  | .killed signal => .ok ⟨none, some signal⟩
  | .ended _ (.exited code) => .ok ⟨some (exitStatus code), none⟩
  | .ended _ (.signaled signal) => .ok ⟨none, some signal⟩
  | .lost => .error (.confine (stepName sFork))
  | .silent => .error (.confine "cell died before reporting")

/-- What is read is what was written. -/
theorem read_report_written (kind first second : Int32) :
    readReport fate (writeReport kind first second) =
      if kind = rExited then .ok ⟨some first, none⟩
      else if kind = rSignaled then .ok ⟨none, some first⟩
      else if kind = rSetupErr then .error (.confine (failureText fate first second))
      else .error (.confine "garbled cell report") := by
  have whole : (writeReport kind first second).take 12 = writeReport kind first second := by
    apply List.take_of_length_le
    rw [writeReport, List.length_append, List.length_append, length_i32_bytes, length_i32_bytes,
      length_i32_bytes]
  have size : (writeReport kind first second).length = 12 := by
    rw [writeReport, List.length_append, List.length_append, length_i32_bytes, length_i32_bytes,
      length_i32_bytes]
  have at_kind : (writeReport kind first second).take 4 = i32Bytes kind := by
    rw [writeReport, List.append_assoc]
    exact List.take_left' (length_i32_bytes kind)
  have at_first : ((writeReport kind first second).drop 4).take 4 = i32Bytes first := by
    rw [writeReport, List.append_assoc, List.drop_left' (length_i32_bytes kind)]
    exact List.take_left' (length_i32_bytes first)
  have at_second : (writeReport kind first second).drop 8 = i32Bytes second := by
    rw [writeReport]
    apply List.drop_left'
    rw [List.length_append, length_i32_bytes, length_i32_bytes]
  rw [readReport]
  simp only [whole, size, at_kind, at_first, at_second, i32_of_bytes, ne_eq, not_true_eq_false,
    if_false]

/-- A step that the second child names is named in the report. -/
theorem bridge_emitted (step errno : Int32) (status : Option Ended) :
    bridge (emit step errno) status = writeReport rSetupErr step errno := by
  have size : (emit step errno).length = 8 := by
    rw [emit, List.length_append, length_i32_bytes, length_i32_bytes]
  have whole : (emit step errno).take 8 = emit step errno := List.take_of_length_le size.le
  have at_step : (emit step errno).take 4 = i32Bytes step :=
    List.take_left' (length_i32_bytes step)
  have at_errno : (emit step errno).drop 4 = i32Bytes errno :=
    List.drop_left' (length_i32_bytes step)
  rw [bridge]
  simp only [whole, size, at_step, at_errno, i32_of_bytes, if_true]

theorem bridge_quiet (status : Option Ended) : bridge [] status = endReport status := rfl

/-- Nothing that a payload writes reaches the first child. -/
theorem payload_silent {report err : Int} {begun world : World}
    (confined : Confined host report cell begun err world) (unhindered : Unhindered host world) :
    (world.fds.any fun fd => fd.number = err) = false := by
  rw [List.any_eq_false]
  intro fd member
  rw [decide_eq_true_eq]
  exact (confined.closed unhindered fd member).1

theorem lost_told : readReport fate (writeReport rSetupErr sFork 0) = Happened.lost.told fate := by
  rw [read_report_written]
  rfl

theorem killed_told (signal : Int32) : readReport fate (writeReport rSignaled signal 0) =
    (Happened.killed signal).told fate := by
  rw [read_report_written]
  rfl

theorem failed_told (step errno : Int32) : readReport fate (writeReport rSetupErr step errno) =
    (Happened.failed step errno).told fate := by
  rw [read_report_written]
  rfl

theorem ended_told (world : World) (how : Ended) :
    readReport fate (endReport (some how.status)) = (Happened.ended world how).told fate := by
  cases how with
  | exited code =>
      change readReport fate (writeReport rExited (exitStatus code) 0) = _
      rw [read_report_written]
      rfl
  | signaled signal => exact killed_told fate signal

variable {host cell} in
theorem unhindered_of_allowed {report err : Int} {begun world : World}
    (confined : Confined host report cell begun err world)
    (allowed : ∀ list ∈ cell.seccomp.over begun.filters,
      host.closeCall ∉ list ∧ host.fcntlCall ∉ list) : Unhindered host world := by
  constructor
  · rw [World.refuses, confined.enclosed.filters, List.any_eq_false]
    intro list member
    rw [List.contains_iff_mem]
    exact (allowed list member).1
  · rw [World.refuses, confined.enclosed.filters, List.any_eq_false]
    intro list member
    rw [List.contains_iff_mem]
    exact (allowed list member).2

variable {host stage cell payload} in
/-- The report says what happened, as long as no filter keeps the descriptor for errors open. -/
theorem report_told {report : Int} {begun : World}
    (allowed : ∀ list ∈ cell.seccomp.over begun.filters,
      host.closeCall ∉ list ∧ host.fcntlCall ∉ list) :
    readReport fate (firstChild host fate stage cell payload report begun) =
      (happened host fate stage cell payload report begun).told fate := by
  rw [firstChild, happened]
  cases fate.silent with
  | true => rfl
  | false =>
      simp only [Bool.false_eq_true, if_false]
      cases init : cellInit host report begun with
      | error error after => exact failed_told fate error.1 error.2
      | ok err started =>
          simp only [secondChild]
          cases fate.killed.filter fun killed => killed.1 ≤
              (finalState (buildWorldAndRun host stage cell payload err started)).calls with
          | some killed =>
              simp only [bridge_quiet]
              cases fate.unwaited with
              | true => exact lost_told fate
              | false => exact killed_told fate killed.2
          | none =>
              cases ran : buildWorldAndRun host stage cell payload err started with
              | error error after =>
                  simp only [bridge_emitted]
                  exact failed_told fate error.1 error.2
              | ok value world =>
                  have ready := (cell_init_triple begun rfl).1 err started init
                  have confined := (root_triple payload ready.fresh started ready).1 () world ran
                  have unhindered := unhindered_of_allowed confined allowed
                  simp only [payload_silent host cell confined unhindered, Bool.false_eq_true,
                    if_false, bridge_quiet]
                  cases fate.unwaited with
                  | true => exact lost_told fate
                  | false => exact ended_told fate world _

/-- What ends has run confined, and what fails is a step that has a name. -/
def Happened.Sound (report : Int) (begun : World) : Happened → Prop
  | .failed step _ => stepName step ≠ "unknown step"
  | .ended world _ => ∃ err, Confined host report cell begun err world
  | .killed _ => True
  | .lost => True
  | .silent => True

theorem happened_sound (report : Int) (begun : World) :
    (happened host fate stage cell payload report begun).Sound host cell report begun := by
  rw [happened]
  cases fate.silent with
  | true => exact trivial
  | false =>
      simp only [Bool.false_eq_true, if_false]
      cases init : cellInit host report begun with
      | error error after => exact (cell_init_triple begun rfl).2 error after init
      | ok err started =>
          have ready := (cell_init_triple begun rfl).1 err started init
          have root : Triple (Ready host report begun err)
              (buildWorldAndRun host stage cell payload err)
              (fun _ => Confined host report cell begun err) Named :=
            root_triple payload ready.fresh
          obtain ⟨fine, bad⟩ := root started ready
          dsimp only
          cases fate.killed.filter fun killed => killed.1 ≤
              (finalState (buildWorldAndRun host stage cell payload err started)).calls with
          | some killed =>
              cases fate.unwaited with
              | true => exact trivial
              | false => exact trivial
          | none =>
              cases ran : buildWorldAndRun host stage cell payload err started with
              | error error after => exact bad error after ran
              | ok value world =>
                  cases fate.unwaited with
                  | true => exact trivial
                  | false => exact ⟨err, fine () world ran⟩

end Telling

/-! ## Polling -/

section Polling

variable {fate : Fate}

/-- Whether a poll finds that the cell is over. -/
def Probe.decides (probe : Probe) : Bool := probe = .gone ∨ probe = .elsewhere

theorem polled_collected (handle : ChildHandle) (done : handle.collected = true)
    (probes : List Probe) : polled fate handle probes = [] := by
  induction probes with
  | nil => rfl
  | cons probe rest ih =>
      rw [polled]
      unfold tryWait
      rw [if_pos done]
      exact ih

/-- Polling is told the status that waiting would be, once, where it finds the child gone itself. -/
theorem polled_once (report : Bytes) (probes : List Probe) :
    polled fate ⟨report, false⟩ probes =
      if probes.find? Probe.decides = some .gone then (readReport fate report).toOption.toList
      else [] := by
  induction probes with
  | nil => rfl
  | cons probe rest ih =>
      rw [polled]
      cases probe with
      | alive => exact ih
      | failed errno => exact ih
      | elsewhere => exact polled_collected _ rfl rest
      | gone =>
          have finished : polled fate ⟨report, true⟩ rest = [] := polled_collected _ rfl rest
          change ((readReport fate report).map some).toOption.join.toList ++
            polled fate ⟨report, true⟩ rest = (readReport fate report).toOption.toList
          rw [finished, List.append_nil]
          cases readReport fate report with
          | ok status => rfl
          | error error => rfl

end Polling

/-! ## The theorem -/

/-- The payload ends with 263, of which eight bits are told. -/
def sampleFate : Fate where
  payload := fun _ => (.exited 263, [])
  killed := none
  unwaited := false
  silent := false
  osError := fun _ => ""
  errnoText := fun _ => ""

end HorizonOs.Cells
