import HorizonOs.Lib.ByteCodec
import HorizonOs.Lifestream.Object
import Mathlib.Logic.Function.Basic
import Mathlib.Data.List.Basic

/-!
# The file system of the host

Files, directories and symbolic links by path, the walk of a path through them, and
the calls that restoring a tree makes. A path is the list of its names from the root
on; no call is refused for its rights or for want of space.
-/

namespace HorizonOs.Lifestream

open HorizonOs.Lib.ByteCodec

set_option autoImplicit false

/-- A file name: any bytes but a slash. -/
abbrev Name := Bytes

abbrev HostPath := List Name

/-- The permission bits of a mode. -/
abbrev Perm := Fin 0o10000

instance permBits : NeZero (0o10000 : Nat) := inferInstance

inductive Inode where
  | dir (perm : Perm)
  | file (perm : Perm) (data : Bytes)
  | symlink (target : Bytes)
  | special
  deriving DecidableEq

abbrev HostFs := HostPath → Option Inode

inductive OsError where
  | notFound
  | alreadyExists
  | notADirectory
  | isADirectory
  | tooManyLinks
  | notAFile
  deriving DecidableEq

def slash : UInt8 := 0x2F
def dot : Name := [0x2E]
def dotdot : Name := [0x2E, 0x2E]

def isAbsolute (text : Bytes) : Bool := text.head? = some slash

/-- The names of a path as text; empty ones do not count. -/
def components (text : Bytes) : List Name := (text.splitOn slash).filter (· ≠ [])

/-- `Path::join`: an absolute name replaces the path. -/
def joinPath (path : HostPath) (name : Name) : HostPath :=
  if isAbsolute name then components name else path ++ components name

/-! ## Walking a path -/

/-- How far a walk comes without following a link. -/
inductive Leg where
  | done (path : HostPath)
  | link (dir : HostPath) (target : Bytes) (rest : List Name)
  | failed (error : OsError)

/-- Walk on from a directory until the path ends or a link must be followed. -/
def advance (fs : HostFs) (follow : Bool) (from_ : HostPath) : List Name → Leg
  | [] => .done from_
  | name :: rest =>
      if name = dot then advance fs follow from_ rest
      else if name = dotdot then advance fs follow from_.dropLast rest
      else
        match fs (from_ ++ [name]) with
        | some (.dir _) => advance fs follow (from_ ++ [name]) rest
        | some (.symlink target) =>
            if rest = [] ∧ follow = false then .done (from_ ++ [name]) else .link from_ target rest
        | some _ => if rest = [] then .done (from_ ++ [name]) else .failed .notADirectory
        | none => if rest = [] then .done (from_ ++ [name]) else .failed .notFound

/-- The walk with as many links as it may still follow. -/
def walk (fs : HostFs) (follow : Bool) : Nat → HostPath → List Name → Except OsError HostPath
  | 0, from_, path =>
      match advance fs follow from_ path with
      | .done place => .ok place
      | .failed error => .error error
      | .link _ _ _ => .error .tooManyLinks
  | links + 1, from_, path =>
      match advance fs follow from_ path with
      | .done place => .ok place
      | .failed error => .error error
      | .link dir target rest =>
          walk fs follow links (if isAbsolute target then [] else dir) (components target ++ rest)

/-- Where a path leads; a last link is followed or not. -/
def resolve (fs : HostFs) (follow : Bool) (path : HostPath) : Except OsError HostPath :=
  walk fs follow 40 [] path

/-! ## Calls -/

/-- The permissions new files and directories get. -/
structure Defaults where
  file : Perm
  dir : Perm

def mkdir (defaults : Defaults) (fs : HostFs) (path : HostPath) : Except OsError HostFs := do
  let place ← resolve fs false path
  match fs place with
  | some _ => .error .alreadyExists
  | none => .ok (Function.update fs place (some (.dir defaults.dir)))

def isDir (fs : HostFs) (path : HostPath) : Bool :=
  match resolve fs true path with
  | .ok place => match fs place with
      | some (.dir _) => true
      | _ => false
  | .error _ => false

/-- `fs::create_dir_all`, on the names of the path from its last on. -/
def createDirs (defaults : Defaults) (fs : HostFs) : List Name → HostFs × Except OsError Unit
  | [] => (fs, .ok ())
  | name :: parents =>
      match mkdir defaults fs (name :: parents).reverse with
      | .ok made => (made, .ok ())
      | .error .notFound =>
          match createDirs defaults fs parents with
          | (made, .error error) => (made, .error error)
          | (made, .ok ()) =>
              match mkdir defaults made (name :: parents).reverse with
              | .ok all => (all, .ok ())
              | .error error =>
                  (made, if isDir made (name :: parents).reverse then .ok () else .error error)
      | .error error =>
          (fs, if isDir fs (name :: parents).reverse then .ok () else .error error)

def createDirAll (defaults : Defaults) (fs : HostFs) (path : HostPath) :
    HostFs × Except OsError Unit := createDirs defaults fs path.reverse

/-- `fs::write`: a last link is followed, a file that is there keeps its permissions. -/
def writeFile (defaults : Defaults) (fs : HostFs) (path : HostPath) (data : Bytes) :
    Except OsError HostFs := do
  let place ← resolve fs true path
  match fs place with
  | none => .ok (Function.update fs place (some (.file defaults.file data)))
  | some (.file perm _) => .ok (Function.update fs place (some (.file perm data)))
  | some (.dir _) => .error .isADirectory
  | some _ => .error .notAFile

def setPermissions (fs : HostFs) (path : HostPath) (perm : Perm) : Except OsError HostFs := do
  let place ← resolve fs true path
  match fs place with
  | none => .error .notFound
  | some (.file _ data) => .ok (Function.update fs place (some (.file perm data)))
  | some (.dir _) => .ok (Function.update fs place (some (.dir perm)))
  | some _ => .error .notAFile

/-- `symlink`: nothing may be there, and a link to nowhere is none. -/
def symlinkTo (fs : HostFs) (target : Bytes) (path : HostPath) : Except OsError HostFs := do
  let place ← resolve fs false path
  if target = [] then .error .notFound
  else
    match fs place with
    | some _ => .error .alreadyExists
    | none => .ok (Function.update fs place (some (.symlink target)))

/-! ## Plain names under real directories -/

/-- A name a directory can list. -/
structure Plain (name : Name) : Prop where
  nonempty : name ≠ []
  dot : name ≠ dot
  dotdot : name ≠ dotdot
  noSlash : slash ∉ name

/-- A path of plain names, every one of them a directory. -/
structure Directories (fs : HostFs) (path : HostPath) : Prop where
  plain : ∀ name ∈ path, Plain name
  dirs : ∀ place, place <+: path → ∃ perm, fs place = some (.dir perm)

theorem join_plain (path : HostPath) (name : Name) (plain : Plain name) :
    joinPath path name = path ++ [name] := by
  have relative : isAbsolute name = false := by
    rw [isAbsolute, decide_eq_false_iff_not]
    intro first
    exact plain.noSlash (List.mem_of_mem_head? first)
  have whole : components name = [name] := by
    have single : name.splitOn slash = [name] := List.splitOn_eq_singleton plain.noSlash
    rw [components, single]
    simp [plain.nonempty]
  rw [joinPath, relative, whole]
  rfl

theorem advance_dirs (fs : HostFs) (follow : Bool) (from_ : HostPath) (path rest : List Name)
    (plain : ∀ name ∈ path, Plain name)
    (dirs : ∀ place, place <+: path → ∃ perm, fs (from_ ++ place) = some (.dir perm)) :
    advance fs follow from_ (path ++ rest) = advance fs follow (from_ ++ path) rest := by
  induction path generalizing from_ with
  | nil => rw [List.nil_append, List.append_nil]
  | cons name path ih =>
      have first := plain name List.mem_cons_self
      obtain ⟨perm, here⟩ := dirs [name] ⟨path, rfl⟩
      have next := ih (from_ ++ [name])
        (fun other member => plain other (List.mem_cons_of_mem name member))
        (fun place before => by
          rw [List.append_assoc]
          exact dirs (name :: place) (List.cons_prefix_cons.mpr ⟨rfl, before⟩))
      rw [List.cons_append, advance, if_neg first.dot, if_neg first.dotdot, here]
      change advance fs follow (from_ ++ [name]) (path ++ rest) = _
      rw [next, List.append_assoc]
      rfl

section Calls

variable {fs : HostFs} {path : HostPath} {name : Name}

/-- The name of a child resolves to itself, unless a link there is to be followed. -/
theorem resolve_child (dirs : Directories fs path) (plain : Plain name) (follow : Bool)
    (unlinked : follow = true → ∀ target, fs (path ++ [name]) ≠ some (.symlink target)) :
    resolve fs follow (path ++ [name]) = .ok (path ++ [name]) := by
  have leg : advance fs follow [] (path ++ [name]) = .done (path ++ [name]) := by
    rw [advance_dirs fs follow [] path [name] dirs.plain dirs.dirs, List.nil_append, advance,
      if_neg plain.dot, if_neg plain.dotdot]
    cases here : fs (path ++ [name]) with
    | none => rfl
    | some inode =>
        cases inode with
        | dir perm => rfl
        | file perm data => rfl
        | special => rfl
        | symlink target =>
            cases follow with
            | true => exact absurd here (unlinked rfl target)
            | false => rfl
  rw [resolve, walk, leg]

theorem resolve_directory (dirs : Directories fs path) (follow : Bool) :
    resolve fs follow path = .ok path := by
  have leg : advance fs follow [] path = .done path := by
    have whole := advance_dirs fs follow [] path [] dirs.plain dirs.dirs
    rwa [List.append_nil] at whole
  rw [resolve, walk, leg]

theorem create_existing (defaults : Defaults) (dirs : Directories fs path) :
    createDirAll defaults fs path = (fs, .ok ()) := by
  obtain ⟨perm, here⟩ := dirs.dirs path (List.prefix_refl path)
  have made : mkdir defaults fs path = .error .alreadyExists := by
    simp only [mkdir, resolve_directory dirs, bind, Except.bind, here]
  have directory : isDir fs path = true := by
    simp only [isDir, resolve_directory dirs, here]
  rw [createDirAll]
  cases last : path.reverse with
  | nil => rfl
  | cons name parents =>
      have back : (name :: parents).reverse = path := by rw [← last, List.reverse_reverse]
      simp only [createDirs, back, made, directory, if_true]

theorem create_child (defaults : Defaults) (dirs : Directories fs path) (plain : Plain name)
    (absent : fs (path ++ [name]) = none) :
    createDirAll defaults fs (path ++ [name]) =
      (Function.update fs (path ++ [name]) (some (.dir defaults.dir)), .ok ()) := by
  have made : mkdir defaults fs (path ++ [name]) =
      .ok (Function.update fs (path ++ [name]) (some (.dir defaults.dir))) := by
    simp only [mkdir, resolve_child dirs plain false (fun impossible => nomatch impossible), bind,
      Except.bind, absent]
  have back : (name :: path.reverse).reverse = path ++ [name] := by simp
  rw [createDirAll, List.reverse_append, List.reverse_singleton, List.singleton_append]
  simp only [createDirs, back, made]

theorem write_child (defaults : Defaults) (dirs : Directories fs path) (plain : Plain name)
    (absent : fs (path ++ [name]) = none) (data : Bytes) :
    writeFile defaults fs (path ++ [name]) data =
      .ok (Function.update fs (path ++ [name]) (some (.file defaults.file data))) := by
  have place := resolve_child dirs plain true (fun _ target => by rw [absent]; exact nofun)
  simp only [writeFile, place, bind, Except.bind, absent]

theorem symlink_child (dirs : Directories fs path) (plain : Plain name)
    (absent : fs (path ++ [name]) = none) (target : Bytes) :
    symlinkTo fs target (path ++ [name]) =
      if target = [] then .error .notFound
      else .ok (Function.update fs (path ++ [name]) (some (.symlink target))) := by
  have place := resolve_child dirs plain false (fun impossible => nomatch impossible)
  simp only [symlinkTo, place, bind, Except.bind, absent]

theorem set_file_permissions (dirs : Directories fs path) (plain : Plain name) {old : Perm}
    {data : Bytes} (here : fs (path ++ [name]) = some (.file old data)) (perm : Perm) :
    setPermissions fs (path ++ [name]) perm =
      .ok (Function.update fs (path ++ [name]) (some (.file perm data))) := by
  have place := resolve_child dirs plain true (fun _ target => by rw [here]; exact nofun)
  simp only [setPermissions, place, bind, Except.bind, here]

theorem set_dir_permissions (dirs : Directories fs path) (plain : Plain name) {old : Perm}
    (here : fs (path ++ [name]) = some (.dir old)) (perm : Perm) :
    setPermissions fs (path ++ [name]) perm =
      .ok (Function.update fs (path ++ [name]) (some (.dir perm))) := by
  have place := resolve_child dirs plain true (fun _ target => by rw [here]; exact nofun)
  simp only [setPermissions, place, bind, Except.bind, here]

/-- A new directory under real ones is one of them. -/
theorem Directories.child (dirs : Directories fs path) (plain : Plain name) {perm : Perm}
    (here : fs (path ++ [name]) = some (.dir perm)) : Directories fs (path ++ [name]) where
  plain other member := by
    rcases List.mem_append.mp member with before | last
    · exact dirs.plain other before
    · rwa [List.mem_singleton.mp last]
  dirs place before := by
    rcases List.prefix_concat_iff.mp before with whole | shorter
    · exact ⟨perm, by rwa [whole]⟩
    · exact dirs.dirs place shorter

/-- Changes beneath a directory leave it and those above it as they are. -/
theorem Directories.beneath (dirs : Directories fs path) {after : HostFs}
    (same : ∀ place, place <+: path → after place = fs place) : Directories after path where
  plain := dirs.plain
  dirs place before := by
    rw [same place before]
    exact dirs.dirs place before

end Calls

end HorizonOs.Lifestream
