import HorizonOs.Lib.DepthFirst
import HorizonOs.Lib.PathOrder
import HorizonOs.Lib.Words

/-!
# The order in which modules are loaded

The init reads the `modules.dep` of the initramfs and loads every module after the ones it
depends on: a post-order walk of the graph in the order of the paths.
-/

namespace HorizonOs.Init

open HorizonOs.Lib.ByteCodec HorizonOs.Lib.Text HorizonOs.Lib.PathOrder HorizonOs.Lib.Words
open HorizonOs.Lib.DepthFirst

set_option autoImplicit false

/-- `PathBuf::from` of a text. -/
def textPath (chars : List Char) : Bytes := utf8 (String.ofList chars)

/-- What one line says: a module and what it depends on. -/
def parseLine (line : List Char) : Option (Bytes × List Bytes) :=
  match splitOnce (· = ':') (trimChars line) with
  | none => none
  | some (target, rest) =>
      let target := trimChars target
      if target = [] then none
      else some (textPath target, (splitWhitespace rest).map textPath)

def addLine (deps : PathGraph) (line : List Char) : PathGraph :=
  match parseLine line with
  | none => deps
  | some (target, needs) => deps.insert target needs

def parseModulesDep (text : List Char) : PathGraph := (lines text).foldl addLine PathMap.empty

/-- What is marked and what is listed, one visited module later; none when the fuel, a unit
for each level of the recursion, runs out. -/
def visitModule (deps : PathGraph) : Nat → Trail Bytes PathKey → Bytes →
    Option (Trail Bytes PathKey) :=
  visit pathKey deps.next

/-- The load order; none if a visit did not end. -/
def moduleLoadOrder (deps : PathGraph) : Option (List Bytes) :=
  (deps.keys.foldlM (visitModule deps (deps.mentions.length + 1)) ⟨[], []⟩).map Trail.order

end HorizonOs.Init
