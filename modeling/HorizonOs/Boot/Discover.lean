import HorizonOs.Init.Plan

/-!
# Finding the store

What makes a directory a store, and the one store to boot at a mount point or right under it.
-/

namespace HorizonOs.Boot

open HorizonOs.Init (Path)

set_option autoImplicit false

/-- A directory, as far as it can be a store: the salt file and the object tier. -/
structure Marks where
  salt : Bool
  objects : Bool
  deriving DecidableEq

/-- A path that has one but not the other is not a store. -/
def isStore (dir : Marks) : Bool := dir.salt && dir.objects

structure Entry where
  name : String
  isDir : Bool
  marks : Marks
  deriving DecidableEq

/-- A partition mounted: its root, and what reading that directory yields. -/
structure Contents where
  root : Marks
  entries : Option (List (Option Entry))

/-- The one store at the root or right under it; a boot does not guess which to open. -/
def discover (root : Path) (contents : Contents) : Option Path := do
  if isStore contents.root then return root
  let entries ← (← contents.entries).mapM id
  match entries.filter fun entry => entry.isDir && isStore entry.marks with
  | [entry] => return root.child entry.name
  | _ => none

end HorizonOs.Boot
