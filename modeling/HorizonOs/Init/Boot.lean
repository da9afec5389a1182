import HorizonOs.Boot.Discover
import HorizonOs.Lib.ByteCodec

/-!
# Init's own run

What init does before there is a plan: it reads the command line, finds the partitions, opens
the verified base, mounts the partition of the store, looks for the one store on it and opens
the encrypted layer with the master that the store yields. Devices, tools and the master are
the environment's; every mount is in the order init performs it.
-/

namespace HorizonOs.Init

open HorizonOs.Boot HorizonOs.Lib.ByteCodec HorizonOs.Lib.Words

set_option autoImplicit false

/-! ## The machine -/

/-- When a device is looked for; the base is polled. -/
inductive Moment where
  | base (poll : Nat)
  | verity
  | data
  | home
  deriving DecidableEq

/-- What init finds around it: the command line, the devices that are there when it looks, how
often it looks for the base, which steps succeed behind which others, whether the verified
device and the encrypted layer open, and what the store's partition holds. -/
structure Machine where
  cmdline : Option (List Char)
  present : Moment → Spec → Option Path
  polls : Nat
  performs : List Step → Step → Bool
  verityOpens : Path → Path → String → Bool
  contents : Path → Contents
  recoverMaster : Path → Params → Option Bytes
  luksOpens : Path → Bytes → Bool

def runPath : Path := .ofNames true ["run", "horizon"]
def storeMount : Path := .ofNames true ["run", "horizon", "store"]
def homeMapper : String := "horizon-home"
def baseMapper : String := "horizon-base"
def mapperPath (mapper : String) : Path := .ofNames true ["dev", "mapper", mapper]

namespace Machine

variable (m : Machine)

def params : Params := parseCmdline (m.cmdline.getD [])

def resolve (moment : Moment) (spec : Spec) (fstype : String) : Option Source :=
  (m.present moment spec).map fun dev => ⟨dev, fstype, {}⟩

/-- Whether steps succeed, each behind those before it. -/
def succeed (before : List Step) : List Step → Bool
  | [] => true
  | step :: rest => m.performs before step && succeed (before ++ [step]) rest

/-- The first step that fails ends the boot. -/
def execute (before steps : List Step) : Option (List Step) :=
  if m.succeed before steps then some (before ++ steps) else none

/-- Poll for the base until it is there. -/
def resolveBase : Option Source :=
  ((List.range (m.polls + 1)).findSome? fun poll =>
    m.resolve (.base poll) m.params.base m.params.basefs).map Source.readOnly

/-- A verified device: over which data, against which hashes, anchored by which root. -/
structure Verity where
  data : Path
  hash : Path
  root : String
  deriving DecidableEq

/-- The base to mount, opened through the hash tree where the command line has its root. -/
def openBase : Option (Source × Option Verity) := do
  let base ← m.resolveBase
  match m.params.verity with
  | none => return (base, none)
  | some root =>
      let hash ← m.resolve .verity m.params.verityDev ""
      if m.verityOpens base.dev hash.dev root then
        return (Source.readOnly ⟨mapperPath baseMapper, m.params.basefs, {}⟩,
          some ⟨base.dev, hash.dev, root⟩)
      else none

def storePart : Option Source := m.resolve .data m.params.data m.params.datafs
def homeDev : Option Source := m.resolve .home m.params.home m.params.homefs
def wantHome : Bool := homeWanted m.params.mode m.storePart.isSome m.homeDev.isSome

/-- The encrypted layer opened with the master of a store. -/
structure Unlocked where
  store : Path
  dev : Path
  master : Bytes
  deriving DecidableEq

def openHome (store : Path) : Option (Mode × Unlocked) := do
  let master ← m.recoverMaster store m.params
  let home ← m.homeDev
  if m.luksOpens home.dev master then
    return (.home ⟨mapperPath homeMapper, m.params.homefs, {}⟩, ⟨store, home.dev, master⟩)
  else none

/-- What is handed to `plan`, and what has been done until then. -/
structure Prepared where
  performed : List Step
  verity : Option Verity
  unlocked : Option Unlocked
  recipe : Recipe

def storeSource (part : Source) : Source := if m.wantHome then part else part.readOnly

def storeSteps (part : Source) : List Step :=
  [.mkdir (Layout.new runPath).data, .mount (m.storeSource part) (Layout.new runPath).data]

/-- The store's partition mounted, and what is found on it. -/
def openStore (base : Source) (verity : Option Verity) (before : List Step) (part : Source) :
    Option Prepared := do
  let performed ← m.execute before (m.storeSteps part)
  match discover (Layout.new runPath).data (m.contents part.dev) with
  | none =>
      return ⟨performed, verity, none,
        ⟨runPath, base, .ghost, [], m.params.init, m.params.initArgs⟩⟩
  | some store =>
      let carry := [⟨store, storeMount⟩]
      let initArgs := ["boot", "--root", "/run/horizon/store"]
      if m.wantHome then
        let (mode, unlocked) ← m.openHome store
        return ⟨performed, verity, some unlocked,
          ⟨runPath, base, mode, carry, m.params.init, initArgs⟩⟩
      else
        return ⟨performed, verity, none,
          ⟨runPath, base, .ghost, carry, m.params.init, initArgs⟩⟩

def mountProc : Step := .mount ⟨.ofNames false ["proc"], "proc", .pseudo⟩ (.ofNames true ["proc"])

/-- `run`, until the recipe is complete. -/
def prepare : Option Prepared := do
  let early ← m.execute [] (mountProc :: earlyMounts)
  let (base, verity) ← m.openBase
  match m.storePart with
  | none =>
      return ⟨early, verity, none,
        ⟨runPath, base, .ghost, [], m.params.init, m.params.initArgs⟩⟩
  | some part => m.openStore base verity early part

end Machine

end HorizonOs.Init
