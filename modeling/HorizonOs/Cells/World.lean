import HorizonOs.Cells.Portal
import HorizonOs.Lib.Buffer
import HorizonOs.Lib.MountTable

/-!
# The world of a cell

What the child of a supervisor does before a payload runs: it leaves the host's namespaces, builds a
root of its own out of what was granted, moves into it and locks down. Every call to the kernel may
fail, whatever it was given.
-/

namespace HorizonOs.Cells

open HorizonOs.Lib.ByteCodec HorizonOs.Lib.LexicalPath HorizonOs.Lib.MountTable HorizonOs.Lib.Text

set_option autoImplicit false

/-! ## What is granted -/

structure Bind where
  src : Bytes
  dst : Bytes
  writable : Bool
  deriving DecidableEq

inductive Seccomp where
  | none
  /-- Refuse these calls, and allow the others. -/
  | block (list : List Int)
  deriving DecidableEq

inductive Payload where
  | exec (path : Bytes) (argv : List Bytes) (env : List (Bytes × Bytes))
  | call

/-- An empty world, and exactly what is granted into it. -/
structure Cell where
  binds : List Bind
  keepFds : List Int
  seccomp : Seccomp
  hostname : Option Bytes
  mountProc : Bool
  mountDev : Bool

namespace Cell

def new : Cell := ⟨[], [], .none, none, false, false⟩

def bindRo (cell : Cell) (src dst : Bytes) : Cell :=
  { cell with binds := cell.binds ++ [⟨src, dst, false⟩] }

def bindRw (cell : Cell) (src dst : Bytes) : Cell :=
  { cell with binds := cell.binds ++ [⟨src, dst, true⟩] }

def keepFd (cell : Cell) (fd : Int) : Cell := { cell with keepFds := cell.keepFds ++ [fd] }

def systemDirs : List Bytes :=
  ["/usr", "/bin", "/sbin", "/lib", "/lib64", "/lib32", "/etc"].map utf8

/-- `bind_host_system`: the host's system directories, those that exist, and /proc and /dev. -/
def bindHostSystem (cell : Cell) (there : Bytes → Bool) : Cell :=
  let bound := (systemDirs.filter there).foldl (fun cell dir => cell.bindRo dir dir) cell
  { bound with mountProc := true, mountDev := true }

end Cell

def devNodes : List Bytes := ["null", "zero", "full", "random", "urandom", "tty"].map utf8

/-- The nodes of a minimal /dev are the host's own. -/
def devBind (name : Bytes) : Bind := ⟨utf8 "/dev/" ++ name, utf8 "/dev/" ++ name, true⟩

/-! ## The kernel -/

inductive Filesystem where
  | host (number : Nat)
  | cellRoot
  /-- The processes of the host, or those of the cell alone. -/
  | proc (ofHost : Bool)
  deriving DecidableEq

/-- Files count as directories without anything below them. -/
abbrev Mounts := Table Bytes Filesystem

structure OpenFd where
  number : Int
  cloexec : Bool
  deriving DecidableEq

structure World where
  mounts : Mounts
  cwd : List Bytes
  /-- Still in the namespaces of the host, and among its processes. -/
  inHost : Bool
  hostPids : Bool
  groupsDenied : Bool
  gidMap : Option String
  uidMap : Option String
  /-- Whether what is mounted here shows on the host, and whether anything did. -/
  propagates : Bool
  leaked : Bool
  hostname : Option Bytes
  noNewPrivs : Bool
  /-- The calls that each filter refuses. -/
  filters : List (List Int)
  fds : List OpenFd
  /-- Calls made so far. -/
  calls : Nat

/-- What the kernel answers. -/
structure Host where
  uid : Nat
  gid : Nat
  /-- The call of this number fails, with this error. -/
  fault : Nat → Option Int32
  isDir : Bytes → Bool
  openMax : Int64
  closeCall : Int
  fcntlCall : Int
  /-- The error of executing a program with its arguments and its environment. -/
  exec : World → Bytes → List Bytes → List Bytes → Option Int32

def eperm : Int32 := 1
def einval : Int32 := 22

/-- The error number of a mount table's refusal. -/
def errnoOf : Failure → Int32
  | .noTarget => 2
  | .noSource => 2
  | .readOnly => 30
  | .busy => 16
  | .notMounted => 22
  | .loop => 40

namespace World

def onMounts (world : World) (change : Mounts → Except Failure Mounts) : Except Int32 World :=
  match change world.mounts with
  | .ok mounts => .ok { world with mounts }
  | .error failure => .error (errnoOf failure)

/-- A change of mounts, which shows on the host while mounts propagate. -/
def mounting (world : World) (change : Mounts → Except Failure Mounts) : Except Int32 World :=
  ({ world with leaked := world.leaked || world.propagates } : World).onMounts change

def place (world : World) (path : Bytes) : List Bytes := resolve world.cwd path

def refuses (world : World) (call : Int) : Bool := world.filters.any fun list => list.contains call

/-- The lowest number that is not in use. -/
def lowest (fds : List OpenFd) : Int :=
  Int.ofNat (((List.range (fds.length + 1)).find? fun number =>
    fds.all fun fd => fd.number ≠ Int.ofNat number).getD fds.length)

def openPipe (world : World) : (Int × Int) × World :=
  let reader := lowest world.fds
  let between := world.fds ++ [⟨reader, false⟩]
  let writer := lowest between
  ((reader, writer), { world with fds := between ++ [⟨writer, false⟩] })

end World

/-- Make a directory and all above it. -/
def makeAll (mounts : Mounts) (cwd : List Bytes) (parts : List Component) : Except Failure Mounts :=
  mounts.makeDirs (if parts.head? = some .root then [] else cwd) (parts.filterMap componentStep)

/-- Create or truncate a file. -/
def writeEmpty (mounts : Mounts) (place : List Bytes) : Except Failure Mounts :=
  match mounts.visible place with
  | none => .error .noTarget
  | some mount => if mount.rdonly then .error .readOnly else mounts.makeDir place

/-! ## Setting up -/

/-- A failure is the step that failed, and why. -/
abbrev Setup := EStateM (Int32 × Int32) World

def sUnshare : Int32 := 1
def sMap : Int32 := 2
def sPrivate : Int32 := 3
def sTmpfs : Int32 := 4
def sMkdir : Int32 := 5
def sBind : Int32 := 6
def sPivot : Int32 := 7
def sHostname : Int32 := 8
def sFork : Int32 := 9
def sNopriv : Int32 := 11
def sSeccomp : Int32 := 12
def sExec : Int32 := 13
def sDev : Int32 := 14
def sProc : Int32 := 15

def stepName (step : Int32) : String :=
  if step = sUnshare then "unshare namespaces"
  else if step = sMap then "write uid/gid map"
  else if step = sPrivate then "make mounts private"
  else if step = sTmpfs then "mount tmpfs root"
  else if step = sMkdir then "create cell dir"
  else if step = sBind then "bind grant into cell"
  else if step = sPivot then "pivot_root"
  else if step = sHostname then "set hostname"
  else if step = sFork then "fork payload"
  else if step = sNopriv then "set no_new_privs"
  else if step = sSeccomp then "install seccomp filter"
  else if step = sExec then "exec payload"
  else if step = sDev then "set up /dev"
  else if step = sProc then "mount /proc"
  else "unknown step"

section Build

variable (host : Host)

/-- One call to the kernel, as part of a step. -/
def sys (step : Int32) (call : World → Except Int32 World) : Setup Unit := fun world =>
  let made := { world with calls := world.calls + 1 }
  match host.fault world.calls with
  | some errno => .error (step, errno) made
  | none =>
      match call made with
      | .ok after => .ok () after
      | .error errno => .error (step, errno) made

def renamed (name : Int32 × Int32 → Int32 × Int32) (action : Setup Unit) : Setup Unit := fun world =>
  match action world with
  | .ok value after => .ok value after
  | .error error after => .error (name error) after

/-! ### Namespaces -/

def writeMaps : Setup Unit := do
  sys host sMap fun world => .ok { world with groupsDenied := true }
  sys host sMap fun world =>
    if world.inHost ∨ ¬world.groupsDenied then .error eperm
    else .ok { world with gidMap := some s!"0 {host.gid} 1\n" }
  sys host sMap fun world =>
    if world.inHost then .error eperm else .ok { world with uidMap := some s!"0 {host.uid} 1\n" }

def closeFd (fd : Int) (world : World) : World :=
  if world.refuses host.closeCall then world
  else { world with fds := world.fds.filter fun open_ => open_.number ≠ fd }

def pipeRaw (step : Int32) : Setup (Int × Int) := fun world =>
  let made := { world with calls := world.calls + 1 }
  match host.fault world.calls with
  | some _ => .error (step, 0) made
  | none =>
      let (ends, after) := made.openPipe
      .ok ends after

/-- What the first child does until the second is its own; the end of the error pipe it writes. -/
def cellInit (report : Int) : Setup Int := do
  sys host sUnshare fun world => .ok { world with inHost := false }
  writeMaps host
  let ends ← pipeRaw host sFork
  -- the first fork after leaving is the first process of the cell
  sys host sFork fun world => .ok { world with hostPids := world.hostPids && world.inHost }
  modify (closeFd host ends.1)
  modify (closeFd host report)
  pure ends.2

/-! ### The root -/

def mkdirs (step : Int32) (parts : List Component) : Setup Unit :=
  sys host step fun world => world.onMounts fun mounts => makeAll mounts world.cwd parts

def putOld : Bytes := utf8 "oldroot"

def stagePath (process sequence : Nat) : Bytes := utf8 s!"/tmp/.horizon-cell.{process}.{sequence}"

/-- A path of the cell, beneath the stage. -/
def staged (stage name : Bytes) : Bytes := stage ++ slash :: name

/-- Where a granted path goes, whatever it begins with. -/
def targetOf (stage dst : Bytes) : Bytes :=
  let text := utf8 (fromUtf8Lossy dst)
  if text.head? = some slash then stage ++ text else staged stage text

/-- A directory for a directory, and otherwise an empty file. -/
def makeTarget (src target : Bytes) : Setup Unit :=
  if host.isDir src then mkdirs host sMkdir (components target)
  else do
    mkdirs host sMkdir (components target).dropLast
    sys host sMkdir fun world =>
      world.onMounts fun mounts => writeEmpty mounts (world.place target)

def bindInto (stage : Bytes) (bind : Bind) : Setup Unit := do
  let target := targetOf stage bind.dst
  makeTarget host bind.src target
  sys host sBind fun world =>
    world.mounting fun mounts => mounts.bind (world.place bind.src) (world.place target)
  if bind.writable then pure ()
  else sys host sBind fun world =>
    world.mounting fun mounts => mounts.remount (world.place target)

def devInto (stage : Bytes) : Setup Unit := do
  mkdirs host sDev (components (staged stage (utf8 "dev")))
  devNodes.forM fun name =>
    renamed (fun error => (sDev, error.2)) (bindInto host stage (devBind name))

def procInto (stage : Bytes) : Setup Unit := do
  let target := staged stage (utf8 "proc")
  mkdirs host sProc (components target)
  sys host sProc fun world => world.mounting fun mounts =>
    mounts.mount ⟨world.place target, .proc world.hostPids, [], false⟩

def pivot (stage : Bytes) : Setup Unit := do
  sys host sPivot fun world =>
    if world.mounts.isDir (world.place stage) then .ok { world with cwd := world.place stage }
    else .error (errnoOf .noTarget)
  sys host sPivot fun world => do
    let after ← world.mounting fun mounts => mounts.pivot world.cwd [putOld]
    .ok { after with cwd := [] }
  sys host sPivot fun world => .ok { world with cwd := [] }
  sys host sPivot fun world => world.mounting fun mounts => mounts.detach [putOld]

/-! ### Locking down -/

def applySeccomp : Seccomp → Setup Unit
  | .none => pure ()
  | .block list =>
      renamed (fun error => (error.1, -1))
        (sys host sSeccomp fun world => .ok { world with filters := list :: world.filters })

def setCloexec (on : Bool) (fd : Int) (world : World) : World :=
  if world.refuses host.fcntlCall then world
  else { world with
    fds := world.fds.map fun open_ =>
      if open_.number = fd then { open_ with cloexec := on } else open_ }

/-- Descriptors from this number on are never closed. -/
def closeLimit : Int :=
  let limit := host.openMax.toInt32
  (if limit ≤ 0 then 1024 else min limit 4096).toInt

def closeUnkept (keep : List Int) (err : Int) (world : World) (fd : Int) : World :=
  if fd < 3 ∨ fd = err ∨ fd ∈ keep then world else closeFd host fd world

/-- `keep_only`, the descriptors from 3 to the limit taken in order. -/
def keepOnly (keep : List Int) (err : Int) (world : World) : World :=
  let kept := keep.foldl (fun world fd => setCloexec host false fd world) world
  let numbers := (List.range (closeLimit host).toNat).map Int.ofNat
  numbers.foldl (closeUnkept host keep err) kept

/-! ### The payload -/

/-- A text with a zero byte becomes an empty one. -/
def cstrings (items : List Bytes) : List Bytes :=
  items.map fun item => if (0 : UInt8) ∈ item then [] else item

def joinKv (key value : Bytes) : Bytes := key ++ UInt8.ofNat '='.toNat :: value

def execute (path : Bytes) (argv : List Bytes) (env : List (Bytes × Bytes)) (world : World) :
    Except Int32 World :=
  match host.exec world path (cstrings argv)
      (cstrings (env.map fun entry => joinKv entry.1 entry.2)) with
  | some errno => .error errno
  | none => .ok { world with fds := world.fds.filter fun fd => !fd.cloexec }

def startPayload (err : Int) : Payload → Setup Unit
  | .call => modify (closeFd host err)
  | .exec path argv env => do
      modify (setCloexec host true err)
      if (0 : UInt8) ∈ path then throw (sExec, einval)
      else sys host sExec (execute host path argv env)

def onlyIf (asked : Bool) (action : Setup Unit) : Setup Unit := if asked then action else pure ()

def setHostname : Option Bytes → Setup Unit
  | some name => sys host sHostname fun world => .ok { world with hostname := some name }
  | none => pure ()

/-- What the second child does until the payload runs. -/
def buildWorldAndRun (stage : Bytes) (cell : Cell) (payload : Payload) (err : Int) :
    Setup Unit := do
  sys host sPrivate fun world => .ok { world with propagates := false }
  mkdirs host sMkdir (components stage)
  sys host sTmpfs fun world => world.mounting fun mounts =>
    mounts.mount ⟨world.place stage, .cellRoot, [], false⟩
  mkdirs host sMkdir (components (staged stage putOld))
  cell.binds.forM (bindInto host stage)
  onlyIf cell.mountDev (devInto host stage)
  onlyIf cell.mountProc (procInto host stage)
  pivot host stage
  setHostname host cell.hostname
  sys host sNopriv fun world => .ok { world with noNewPrivs := true }
  applySeccomp host cell.seccomp
  modify (keepOnly host cell.keepFds err)
  startPayload host err payload

end Build

end HorizonOs.Cells
