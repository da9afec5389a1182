import HorizonOs.Init.Cmdline
import HorizonOs.Lib.LexicalPath

/-!
# The boot plan

The mounts that turn an initramfs into the real root, in their order: the kernel's own
filesystems, the immutable base, the writable layer, the overlay of both, what is carried
over, and the handoff. `plan` folds a recipe into these steps and touches no device.
-/

namespace HorizonOs.Init

open HorizonOs.Lib.LexicalPath (walk)

set_option autoImplicit false

/-! ## Paths -/

/-- A path as its components, which is all that two paths are compared by. -/
structure Path where
  absolute : Bool
  steps : List (Lib.LexicalPath.Step String)
  deriving DecidableEq

namespace Path

def ofNames (absolute : Bool) (names : List String) : Path :=
  ⟨absolute, names.map .down⟩

/-- An absolute path takes the place of what it is joined to. -/
def join (path other : Path) : Path :=
  if other.absolute then other else { path with steps := path.steps ++ other.steps }

def child (path : Path) (name : String) : Path := path.join (.ofNames false [name])

/-- Where the path leads: init works in the root, and an initramfs has no links on its ways. -/
def place (path : Path) : List String := walk [] path.steps

end Path

/-! ## Sources and recipes -/

structure MountFlags where
  rdonly : Bool := false
  nosuid : Bool := false
  nodev : Bool := false
  noexec : Bool := false
  deriving DecidableEq

def MountFlags.pseudo : MountFlags := { nosuid := true, nodev := true, noexec := true }

def MountFlags.scratch : MountFlags := { nosuid := true, nodev := true }

/-- Device nodes must function. -/
def MountFlags.dev : MountFlags := { nosuid := true }

/-- The kernel's own filesystems, which the executor lets be mounted again. -/
def isPseudo (fstype : String) : Bool := fstype ∈ ["proc", "sysfs", "devtmpfs", "tmpfs"]

structure Source where
  dev : Path
  fstype : String
  flags : MountFlags
  deriving DecidableEq

def Source.readOnly (source : Source) : Source :=
  { source with flags := { source.flags with rdonly := true } }

def Source.tmpfs : Source := ⟨.ofNames false ["tmpfs"], "tmpfs", .scratch⟩

/-- What the writable layer is made of. -/
inductive Mode where
  | home (dev : Source)
  | ghost
  deriving DecidableEq

/-- A path of the initramfs and where it lands, relative to the new root. -/
structure Carry where
  origin : Path
  target : Path
  deriving DecidableEq

structure Layout where
  scratch : Path
  lower : Path
  data : Path
  «over» : Path
  upper : Path
  work : Path
  root : Path

def Layout.new (scratch : Path) : Layout :=
  let «over» := scratch.child "over"
  { scratch, «over»
    lower := scratch.child "lower"
    data := scratch.child "data"
    upper := «over».child "upper"
    work := «over».child "work"
    root := scratch.child "root" }

/-- Both the store's partition and the encrypted layer are there, and Ghost is not asked for. -/
def homeWanted (choice : ModeChoice) (has_store has_home : Bool) : Bool :=
  choice ≠ .ghost && has_store && has_home

structure Recipe where
  scratch : Path
  base : Source
  mode : Mode
  carry : List Carry
  init : String
  initArgs : List String
  deriving DecidableEq

/-! ## The plan -/

inductive Step where
  | mkdir (path : Path)
  | mount (source : Source) (target : Path)
  | overlay (lower upper work target : Path)
  | bind (origin target : Path)
  | move (origin target : Path)
  | switchRoot (new_root : Path) (init : String) (args : List String)
  deriving DecidableEq

def earlyMounts : List Step :=
  [.mount ⟨.ofNames false ["devtmpfs"], "devtmpfs", .dev⟩ (.ofNames true ["dev"]),
    .mount ⟨.ofNames false ["proc"], "proc", .pseudo⟩ (.ofNames true ["proc"]),
    .mount ⟨.ofNames false ["sysfs"], "sysfs", .pseudo⟩ (.ofNames true ["sys"])]

/-- A target under the new root, also where it looks absolute. -/
def under (root rel : Path) : Path := root.join { rel with absolute := false }

def Recipe.overSource (r : Recipe) : Source :=
  match r.mode with
  | .home dev => dev
  | .ghost => .tmpfs

def baseSteps (r : Recipe) (l : Layout) : List Step :=
  [.mkdir l.lower, .mount r.base.readOnly l.lower]

def layerSteps (r : Recipe) (l : Layout) : List Step :=
  [.mkdir l.over, .mount r.overSource l.over, .mkdir l.upper, .mkdir l.work]

def rootSteps (l : Layout) : List Step :=
  [.mkdir l.root, .overlay l.lower l.upper l.work l.root]

def carrySteps (root : Path) (c : Carry) : List Step :=
  [.mkdir (under root c.target), .bind c.origin (under root c.target)]

def moveSteps (root : Path) (name : String) : List Step :=
  [.mkdir (root.child name), .move (.ofNames true [name]) (root.child name)]

/-- The kernel's filesystems, moved into the new root. -/
def kernelMoves (root : Path) : List Step := ["dev", "proc", "sys"].flatMap (moveSteps root)

def plan (r : Recipe) : List Step :=
  let l := Layout.new r.scratch
  earlyMounts ++ baseSteps r l ++ layerSteps r l ++ rootSteps l ++
    r.carry.flatMap (carrySteps l.root) ++ kernelMoves l.root ++
    [.switchRoot l.root r.init r.initArgs]

/-! ## Where its paths lead -/

theorem Path.child_steps (path : Path) (name : String) :
    (path.child name).steps = path.steps ++ [.down name] := rfl

theorem Path.place_child (path : Path) (name : String) :
    (path.child name).place = path.place ++ [name] := by
  rw [Path.place, Path.child_steps, Lib.LexicalPath.walk_append]
  rfl

theorem Path.place_of_names (absolute : Bool) (names : List String) :
    (Path.ofNames absolute names).place = names :=
  Lib.LexicalPath.walk_down [] names

/-- A walk that never goes up ends below its start. -/
theorem walk_descends (start : List String) (steps : List (Lib.LexicalPath.Step String))
    (down : Lib.LexicalPath.Step.up ∉ steps) : start <+: walk start steps := by
  induction steps generalizing start with
  | nil => exact List.prefix_rfl
  | cons step steps ih =>
      obtain ⟨first, rest⟩ := not_or.mp (mt List.mem_cons.mpr down)
      have later := ih (Lib.LexicalPath.stepFrom start step) rest
      cases step with
      | up => exact absurd rfl first
      | down name => exact (List.prefix_append start [name]).trans later

/-- A carried path without `..` lands under the root. -/
theorem under_below (root rel : Path) (down : Lib.LexicalPath.Step.up ∉ rel.steps) :
    root.place <+: (under root rel).place := by
  have steps : (under root rel).steps = root.steps ++ rel.steps := rfl
  rw [Path.place, Path.place, steps, Lib.LexicalPath.walk_append]
  exact walk_descends _ _ down

end HorizonOs.Init
