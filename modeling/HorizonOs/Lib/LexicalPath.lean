import HorizonOs.Lib.ByteCodec
import Mathlib.Data.List.Induction
import Mathlib.Data.List.Infix

/-!
# Paths and their lexical resolution

A walk in a tree goes up or down one name at a time. Every walk has a normal
form, some steps up and then only steps down, and the normal form decides
whether the walk ends beneath where it started. Paths are byte strings split
into components the way `std::path` splits them, and resolve to walks.
-/

namespace HorizonOs.Lib.LexicalPath

open HorizonOs.Lib.ByteCodec

set_option autoImplicit false

/-! ## Walks -/

section Walks

variable {Name : Type}

inductive Step (Name : Type) where
  | up
  | down (name : Name)
  deriving DecidableEq, Repr

/-- One step from a directory; the root is its own parent. -/
def stepFrom (directory : List Name) : Step Name → List Name
  | .up => directory.dropLast
  | .down name => directory ++ [name]

def walk (start : List Name) (steps : List (Step Name)) : List Name := steps.foldl stepFrom start

/-- The normal form of a walk so far, one step later. -/
def normalStep (form : Nat × List Name) : Step Name → Nat × List Name
  | .up => if form.2 = [] then (form.1 + 1, []) else (form.1, form.2.dropLast)
  | .down name => (form.1, form.2 ++ [name])

/-- How far a walk climbs above its start, and the names it goes down from there. -/
def normalForm (steps : List (Step Name)) : Nat × List Name := steps.foldl normalStep (0, [])

theorem walk_append (start : List Name) (first second : List (Step Name)) :
    walk start (first ++ second) = walk (walk start first) second := by
  simp [walk, List.foldl_append]

theorem normal_form_snoc (steps : List (Step Name)) (last : Step Name) :
    normalForm (steps ++ [last]) = normalStep (normalForm steps) last := by
  simp [normalForm, List.foldl_append]

theorem walk_normal_form (start : List Name) (steps : List (Step Name)) :
    walk start steps = start.take (start.length - (normalForm steps).1) ++ (normalForm steps).2 := by
  induction steps using List.reverseRecOn with
  | nil => simp [walk, normalForm]
  | append_singleton steps last ih =>
      rw [walk_append, ih, normal_form_snoc]
      cases last with
      | down name => simp [walk, stepFrom, normalStep]
      | up =>
          change (start.take _ ++ _).dropLast = _
          by_cases names : (normalForm steps).2 = []
          · simp only [normalStep, names, if_true, List.append_nil, List.dropLast_eq_take,
              List.take_take, List.length_take]
            congr 1
            omega
          · simp only [normalStep, names, if_false]
            rw [List.dropLast_append_of_ne_nil names]

/-- The walk ends beneath its start exactly when the names it goes down begin
with the names it climbed over. -/
theorem prefix_walk_iff (start : List Name) (steps : List (Step Name)) :
    start <+: walk start steps ↔
      start.drop (start.length - (normalForm steps).1) <+: (normalForm steps).2 := by
  rw [walk_normal_form]
  set kept := start.length - (normalForm steps).1
  conv_lhs => lhs; rw [← List.take_append_drop kept start]
  exact List.prefix_append_right_inj _

/-- A walk that never goes up just appends its names. -/
theorem walk_down (start names : List Name) :
    walk start (names.map Step.down) = start ++ names := by
  induction names generalizing start with
  | nil => simp [walk]
  | cons name rest ih =>
      have first : walk start ((name :: rest).map Step.down) =
          walk (start ++ [name]) (rest.map Step.down) := rfl
      rw [first, ih, List.append_assoc]
      rfl

end Walks

/-! ## Components -/

/-- `std::path::Component` on a system without path prefixes. -/
inductive Component where
  | root
  | cur
  | parent
  | normal (name : Bytes)
  deriving DecidableEq, Repr

def slash : UInt8 := 47
def dot : UInt8 := 46

/-- The parts of a path between its slashes. -/
def splitSlash : Bytes → List Bytes
  | [] => [[]]
  | byte :: rest =>
      match splitSlash rest with
      | [] => [[byte]]
      | part :: parts => if byte = slash then [] :: part :: parts else (byte :: part) :: parts

/-- What stands between two slashes; empty parts and dots name nothing. -/
def partComponent (part : Bytes) : Option Component :=
  if part = [] ∨ part = [dot] then none
  else if part = [dot, dot] then some .parent
  else some (.normal part)

/-- `Path::components`: a dot survives only in front. -/
def components (path : Bytes) : List Component :=
  let parts := splitSlash path
  let front :=
    if path.head? = some slash then [.root]
    else if parts.head? = some [dot] then [.cur]
    else []
  front ++ parts.filterMap partComponent

/-- One component from a directory. -/
def enter (directory : List Bytes) : Component → List Bytes
  | .root => []
  | .cur => directory
  | .parent => directory.dropLast
  | .normal name => directory ++ [name]

/-- The directory or file a path names when `.` and `..` are resolved by the
names alone, starting from a working directory. -/
def resolve (workingDirectory : List Bytes) (path : Bytes) : List Bytes :=
  (components path).foldl enter workingDirectory

/-- The steps of components behind the root. -/
def componentStep : Component → Option (Step Bytes)
  | .root => none
  | .cur => none
  | .parent => some .up
  | .normal name => some (.down name)

theorem enter_steps (directory : List Bytes) (parts : List Component)
    (relative : Component.root ∉ parts) :
    parts.foldl enter directory = walk directory (parts.filterMap componentStep) := by
  induction parts generalizing directory with
  | nil => rfl
  | cons part rest ih =>
      have tail := ih (enter directory part) fun member => relative (List.mem_cons_of_mem _ member)
      rw [List.foldl_cons, tail]
      cases part with
      | root => simp at relative
      | cur => rfl
      | parent => rfl
      | normal name => rfl

theorem part_component_ne_root (part : Bytes) : partComponent part ≠ some .root := by
  unfold partComponent
  split
  · simp
  · split <;> simp

theorem root_not_in_parts (parts : List Bytes) :
    Component.root ∉ parts.filterMap partComponent := by
  intro member
  obtain ⟨part, _, same⟩ := List.mem_filterMap.mp member
  exact part_component_ne_root part same

/-- An absolute path resolves to the walk of its components from the root. -/
theorem resolve_absolute (workingDirectory : List Bytes) (path : Bytes)
    (rest : List Component) (absolute : components path = .root :: rest)
    (relative : Component.root ∉ rest) :
    resolve workingDirectory path = walk [] (rest.filterMap componentStep) := by
  rw [resolve, absolute, List.foldl_cons]
  exact enter_steps [] rest relative

/-! ## Building paths -/

def endsWithSlash (path : Bytes) : Bool := path.getLast? = some slash

/-- `PathBuf::push` of something relative. -/
def joinName (path name : Bytes) : Bytes :=
  if path = [] ∨ endsWithSlash path then path ++ name else path ++ slash :: name

def pushComponent (path : Bytes) : Component → Bytes
  | .root => [slash]
  | .cur => joinName path [dot]
  | .parent => joinName path [dot, dot]
  | .normal name => joinName path name

/-- `std::path::absolute`: the working directory in front, redundant dots and
slashes gone, `..` and a trailing slash kept, and exactly two leading slashes too. -/
def absolutePath (workingDirectory : Except String Bytes) (path : Bytes) :
    Except String Bytes := do
  let parts := match components path with
    | .cur :: rest => rest
    | all => all
  let joined ←
    if path = [] then .error "cannot make an empty path absolute"
    else if path.head? = some slash then
      if path.take 2 = [slash, slash] ∧ path.take 3 ≠ [slash, slash, slash] then
        .ok (parts.tail.foldl pushComponent [slash, slash])
      else .ok (parts.foldl pushComponent [])
    else workingDirectory.map fun directory => parts.foldl pushComponent directory
  .ok (if endsWithSlash path then joinName joined [] else joined)

end HorizonOs.Lib.LexicalPath
