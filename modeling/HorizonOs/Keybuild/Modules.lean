import HorizonOs.Lib.PathOrder
import HorizonOs.Lib.Words

/-!
# Kernel modules and their dependencies

The closure of the modules a base asks for in the graph of a `modules.dep`, and the file
written for just that closure.
-/

namespace HorizonOs.Keybuild

open HorizonOs.Lib.ByteCodec HorizonOs.Lib.Text HorizonOs.Lib.LexicalPath
open HorizonOs.Lib.PathOrder HorizonOs.Lib.Words

set_option autoImplicit false

/-! ## Names -/

/-- `str::replace('-', "_")`. -/
def underscored (name : List Char) : List Char :=
  name.map fun c => if c = '-' then '_' else c

/-- `str::strip_suffix`. -/
def stripSuffix (suffix name : List Char) : Option (List Char) :=
  (stripPrefix suffix.reverse name.reverse).map List.reverse

/-- `Path::file_name`, as far as it is text. -/
def fileName (path : Bytes) : List Char :=
  match (components path).getLast? with
  | some (.normal name) =>
      match fromUtf8 name with
      | some text => text.toList
      | none => []
  | _ => []

/-- The canonical name of a module file. -/
def moduleName (relpath : Bytes) : List Char :=
  let file := fileName relpath
  let base :=
    ((stripSuffix ".ko.xz".toList file).orElse fun _ =>
      (stripSuffix ".ko.zst".toList file).orElse fun _ =>
        (stripSuffix ".ko.gz".toList file).orElse fun _ =>
          stripSuffix ".ko".toList file).getD file
  underscored base

/-- What `by_name` has for a requested name: of the files with this canonical name the
first in path order. -/
def named (deps : PathGraph) (name : String) : Option Bytes :=
  deps.keys.find? fun path => moduleName path = underscored name.toList

/-! ## The closure -/

/-- `Error::UnknownModules`. -/
structure UnknownModules where
  names : List String
  deriving DecidableEq

/-- Pop modules that are in the closure already, up to one that is not. -/
def popModule (deps : PathGraph) (again : List Bytes → List Bytes → Option (List Bytes))
    (closure : List Bytes) : List Bytes → Option (List Bytes)
  | [] => some closure
  | m :: stack =>
      if pathKey m ∈ closure.map pathKey then popModule deps again closure stack
      else
        let grown := insertPath m closure
        let pushed := (deps.next (pathKey m)).filter fun d => pathKey d ∉ grown.map pathKey
        -- pushed in order, so the last of them is popped first
        again grown (pushed.reverse ++ stack)

/-- The loop of `module_closure`; it takes one unit of fuel for each module it adds. -/
def closeModules (deps : PathGraph) : Nat → List Bytes → List Bytes → Option (List Bytes)
  | 0, _, _ => none
  | fuel + 1, closure, stack => popModule deps (closeModules deps fuel) closure stack

/-- The files of the requested names and all they depend on, or the names that no file has;
none if the loop did not end. -/
def moduleClosure (deps : PathGraph) (requested : List String) :
    Option (Except UnknownModules (List Bytes)) :=
  let unknown := requested.filter fun name => (named deps name).isNone
  if unknown ≠ [] then some (.error ⟨unknown⟩)
  else
    let stack := (requested.filterMap (named deps)).reverse
    (closeModules deps (deps.mentions.length + 1) [] stack).map .ok

/-! ## The file -/

/-- `Path::to_string_lossy`. -/
def pathText (path : Bytes) : List Char := (fromUtf8Lossy path).toList

/-- A module's line, with those of its dependencies that are in the closure. -/
def emitLine (closure : List Bytes) (deps : PathGraph) (m : Bytes) : List Char :=
  let present := (deps.next (pathKey m)).filter fun d => pathKey d ∈ closure.map pathKey
  pathText m ++ ':' :: (present.flatMap fun d => ' ' :: pathText d) ++ [newline]

def emitModulesDep (closure : List Bytes) (deps : PathGraph) : List Char :=
  closure.flatMap (emitLine closure deps)

end HorizonOs.Keybuild
