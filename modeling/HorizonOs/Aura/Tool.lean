import HorizonOs.Weave.Broker

/-!
# Tools

The actions Aura may take. A tool says which capabilities a call needs before it
acts, and acts on the files those capabilities name and on nothing else.
-/

namespace HorizonOs.Aura

open HorizonOs.Lib.ByteCodec HorizonOs.Lib.Text HorizonOs.Lib.LexicalPath HorizonOs.Lib.Runs
open HorizonOs.Weave

set_option autoImplicit false

inductive Error where
  | missingArg (key : String)
  | badArg (key message : String)
  | unknownTool (name : String)
  | io (message : String)
  | weave (error : Weave.Error)
  | plan (message : String)
  deriving DecidableEq

/-! ## Files

What the operating system answers may depend on everything done to it before. -/

/-- One file operation as it is handed to the operating system. -/
inductive FileOp where
  | readDir (path : Bytes)
  | isDir (path : Bytes)
  | read (path : Bytes)
  | rename (src dst : Bytes)
  | removeFile (path : Bytes)
  deriving DecidableEq

def FileOp.paths : FileOp → List Bytes
  | .readDir path => [path]
  | .isDir path => [path]
  | .read path => [path]
  | .rename src dst => [src, dst]
  | .removeFile path => [path]

structure Os where
  currentDir : Except String Bytes
  readDir : List FileOp → Bytes → Except String (List Bytes)
  isDir : List FileOp → Bytes → Bool
  read : List FileOp → Bytes → Except String Bytes
  rename : List FileOp → Bytes → Bytes → Except String Unit
  removeFile : List FileOp → Bytes → Except String Unit

/-- The state is what was done so far. -/
abbrev FileM := EStateM Error (List FileOp)

def fileOp {α : Type} (op : FileOp) (answer : List FileOp → Except String α) : FileM α :=
  fun done =>
    match answer done with
    | .ok value => .ok value (done ++ [op])
    | .error message => .error (.io message) (done ++ [op])

def Os.listDir (os : Os) (path : Bytes) : FileM (List Bytes) :=
  fileOp (.readDir path) fun done => os.readDir done path

def Os.readFile (os : Os) (path : Bytes) : FileM Bytes :=
  fileOp (.read path) fun done => os.read done path

/-! ## Calls of a tool -/

inductive Effect where
  | read
  | write
  | destructive
  deriving DecidableEq, Repr

def Effect.label : Effect → String
  | .read => "read"
  | .write => "write"
  | .destructive => "destructive"

def Effect.isDestructive (effect : Effect) : Bool := effect = .destructive

/-- A resource and the rights over it. -/
structure Need where
  resource : Resource
  rights : Rights
  deriving DecidableEq

abbrev Args := AList fun _ : String => String

def Args.require (args : Args) (key : String) : Except Error String :=
  match args.lookup key with
  | some value => .ok value
  | none => .error (.missingArg key)

inductive Outcome where
  | listing (names : List String)
  | text (text : String)
  | matched (paths : List String)
  | moved (src dst : String)
  | deleted (path : String)
  deriving DecidableEq

def Outcome.summary : Outcome → String
  | .listing names => s!"{names.length} entries"
  | .text body => s!"{(utf8 body).length} bytes"
  | .matched paths => s!"{paths.length} matches"
  | .moved src dst => s!"moved {src} -> {dst}"
  | .deleted path => s!"deleted {path}"

structure ParamSpec where
  name : String
  description : String
  required : Bool
  deriving DecidableEq

structure Tool where
  name : String
  description : String
  params : List ParamSpec
  effect : Effect
  required : Args → Except Error (List Need)
  run : Args → List Lease → FileM Outcome

def liftArg {α : Type} (result : Except Error α) : FileM α := fun done =>
  match result with
  | .ok value => .ok value done
  | .error error => .error error done

/-- A path argument as an absolute path. -/
def pathArg (os : Os) (args : Args) (key : String) : Except Error Bytes := do
  let raw ← args.require key
  if raw = "" then .error (.badArg key "empty path")
  else
    match absolutePath os.currentDir (utf8 raw) with
    | .ok path => .ok path
    | .error message => .error (.badArg key message)

/-- The one need of most tools: some rights on the path an argument names. -/
def needs (os : Os) (key : String) (rights : Rights) (args : Args) : Except Error (List Need) := do
  let path ← pathArg os args key
  .ok [⟨.file path, rights⟩]

def readCap : Nat := 64 * 1024
def findDepth : Nat := 8

def sortNames (names : List Bytes) : List Bytes :=
  names.mergeSort fun left right => left ≤ right

/-! ## The standard tools -/

def listDir (os : Os) : Tool where
  name := "list_dir"
  description := "list the entries directly under a directory"
  params := [⟨"path", "the directory to list", true⟩]
  effect := .read
  required := needs os "path" Rights.READ
  run args _ := do
    let path ← liftArg (pathArg os args "path")
    let names ← os.listDir path
    pure (.listing ((names.map fromUtf8Lossy).mergeSort fun left right => left ≤ right))

def readFile (os : Os) : Tool where
  name := "read_file"
  description := "read the text contents of a file"
  params := [⟨"path", "the file to read", true⟩]
  effect := .read
  required := needs os "path" Rights.READ
  run args _ := do
    let path ← liftArg (pathArg os args "path")
    let bytes ← os.readFile path
    pure (.text (fromUtf8Lossy (bytes.take readCap)))

/-- The body of a candidate; a file that cannot be read counts as empty. -/
def bodyText (os : Os) (path : Bytes) : FileM String := fun done =>
  match os.readFile path done with
  | .ok bytes done => .ok (fromUtf8Lossy (bytes.take readCap)) done
  | .error _ done => .ok "" done

/-- `doc_text`: a candidate's name and the start of its contents. -/
def docText (os : Os) (path : Bytes) : FileM String := do
  let name := match (components path).getLast? with
    | some (.normal name) => fromUtf8Lossy name
    | _ => ""
  let body ← bodyText os path
  pure (name ++ "\n" ++ body)

/-- The files under a directory with the text each is ranked by, directories in
name order, down to a bounded depth. -/
def walkFiles (os : Os) : Nat → Bytes → FileM (List (Bytes × String))
  | 0, _ => pure []
  | depth + 1, dir => do
      let names ← os.listDir dir
      let found ← (sortNames names).mapM fun name => do
        let path := joinName dir name
        let nested ← fileOp (.isDir path) fun done => .ok (os.isDir done path)
        if nested then walkFiles os depth path
        else do
          let text ← docText os path
          pure [(path, text)]
      pure found.flatten

/-- How an embedder ranks candidates against a query: their paths, best first. -/
abbrev Ranking := String → List (Bytes × String) → List Bytes

def findLimit : Nat := 50

def find (os : Os) (rank : Ranking) : Tool where
  name := "find"
  description := "find files under a directory by meaning (semantic ranking)"
  params := [⟨"dir", "the directory to search", true⟩,
    ⟨"query", "what to look for, in your own words", true⟩]
  effect := .read
  required := needs os "dir" Rights.READ
  run args _ := do
    let dir ← liftArg (pathArg os args "dir")
    let query ← liftArg (args.require "query")
    let files ← walkFiles os findDepth dir
    pure (.matched (((rank query files).take findLimit).map fromUtf8Lossy))

def moveFile (os : Os) : Tool where
  name := "move_file"
  description := "move a file from one path to another"
  params := [⟨"src", "the file to move", true⟩, ⟨"dst", "where to move it", true⟩]
  effect := .destructive
  required args := do
    let src ← pathArg os args "src"
    let dst ← pathArg os args "dst"
    .ok [⟨.file src, Rights.READ.union Rights.WRITE⟩, ⟨.file dst, Rights.WRITE⟩]
  run args _ := do
    let src ← liftArg (pathArg os args "src")
    let dst ← liftArg (pathArg os args "dst")
    fileOp (.rename src dst) fun done => os.rename done src dst
    pure (.moved (fromUtf8Lossy src) (fromUtf8Lossy dst))

def deleteFile (os : Os) : Tool where
  name := "delete_file"
  description := "delete a file"
  params := [⟨"path", "the file to delete", true⟩]
  effect := .destructive
  required := needs os "path" Rights.WRITE
  run args _ := do
    let path ← liftArg (pathArg os args "path")
    fileOp (.removeFile path) fun done => os.removeFile done path
    pure (.deleted (fromUtf8Lossy path))

abbrev Catalog := List Tool

def Catalog.standard (os : Os) (rank : Ranking) : Catalog :=
  [listDir os, readFile os, find os rank, moveFile os, deleteFile os]

def Catalog.get (catalog : Catalog) (name : String) : Option Tool :=
  catalog.find? fun tool => tool.name = name

/-! ## Tools act on what they need -/

/-- Whatever the action does to files, it does under these paths: to one of them,
or to what directory entries lead to from one of them. -/
def Under (roots : List Bytes) (path : Bytes) : Prop :=
  ∃ root ∈ roots, ∃ names : List Bytes, path = names.foldl joinName root

def ActsUnder (roots : List Bytes) : List FileOp → List FileOp → Prop := fun before after =>
  ∃ done, after = before ++ done ∧ ∀ op ∈ done, ∀ path ∈ op.paths, Under roots path

theorem acts_refl (roots : List Bytes) (done : List FileOp) : ActsUnder roots done done :=
  ⟨[], by simp, by simp⟩

theorem acts_trans (roots : List Bytes) (first second third : List FileOp)
    (left : ActsUnder roots first second) (right : ActsUnder roots second third) :
    ActsUnder roots first third := by
  obtain ⟨one, rfl, under⟩ := left
  obtain ⟨two, rfl, underToo⟩ := right
  refine ⟨one ++ two, by simp, ?_⟩
  intro op member
  rcases List.mem_append.mp member with inOne | inTwo
  · exact under op inOne
  · exact underToo op inTwo

theorem file_op_acts {α : Type} (roots : List Bytes) (op : FileOp)
    (answer : List FileOp → Except String α) (under : ∀ path ∈ op.paths, Under roots path) :
    Preserves (ActsUnder roots) (fileOp op answer) := by
  intro done
  have moved : ActsUnder roots done (done ++ [op]) := by
    refine ⟨[op], rfl, ?_⟩
    intro other member
    rw [List.mem_singleton.mp member]
    exact under
  unfold fileOp
  cases answer done <;> exact moved

theorem lift_ok {α β : Type} (value : α) (next : α → FileM β) :
    liftArg (.ok value) >>= next = next value := by
  funext done
  rfl

theorem lift_arg_acts {α : Type} (roots : List Bytes) (result : Except Error α) :
    Preserves (ActsUnder roots) (liftArg result) := by
  intro done
  cases result <;> exact acts_refl roots done

theorem under_root (root : Bytes) : Under [root] root :=
  ⟨root, List.mem_singleton_self _, [], rfl⟩

theorem under_join (roots : List Bytes) (dir name : Bytes) (under : Under roots dir) :
    Under roots (joinName dir name) := by
  obtain ⟨root, member, names, rfl⟩ := under
  exact ⟨root, member, names ++ [name], by simp⟩

section Acting

variable {roots : List Bytes}

theorem acts_pure {α : Type} (value : α) : Preserves (ActsUnder roots) (pure value : FileM α) :=
  Preserves.pure (acts_refl roots) value

theorem acts_bind {α β : Type} {action : FileM α} {next : α → FileM β}
    (first : Preserves (ActsUnder roots) action)
    (second : ∀ value, Preserves (ActsUnder roots) (next value)) :
    Preserves (ActsUnder roots) (action >>= next) :=
  Preserves.bind (acts_trans roots) first second

theorem acts_map_m {α β : Type} (action : α → FileM β)
    (each : ∀ item, Preserves (ActsUnder roots) (action item)) (items : List α) :
    Preserves (ActsUnder roots) (items.mapM action) := by
  induction items with
  | nil => exact acts_pure []
  | cons item rest ih =>
      rw [List.mapM_cons]
      apply acts_bind (each item)
      intro value
      apply acts_bind ih
      intro values
      exact acts_pure _

theorem doc_text_acts (os : Os) (path : Bytes) (under : Under roots path) :
    Preserves (ActsUnder roots) (docText os path) := by
  have reads : Preserves (ActsUnder roots) (os.readFile path) := by
    apply file_op_acts
    intro other member
    rw [List.mem_singleton.mp member]
    exact under
  have body : Preserves (ActsUnder roots) (bodyText os path) := by
    intro done
    have moved := reads done
    unfold bodyText
    cases outcome : os.readFile path done <;> rw [outcome] at moved <;> exact moved
  apply acts_bind body
  intro text
  exact acts_pure _

theorem walk_files_acts (os : Os) (depth : Nat) (dir : Bytes) (under : Under roots dir) :
    Preserves (ActsUnder roots) (walkFiles os depth dir) := by
  induction depth generalizing dir with
  | zero => exact acts_pure []
  | succ depth ih =>
      unfold walkFiles
      apply acts_bind
      · apply file_op_acts
        intro other member
        rw [List.mem_singleton.mp member]
        exact under
      intro names
      apply acts_bind
      · apply acts_map_m
        intro name
        have deeper := under_join roots dir name under
        apply acts_bind
        · apply file_op_acts
          intro other member
          rw [List.mem_singleton.mp member]
          exact deeper
        intro nested
        cases nested with
        | true => exact ih _ deeper
        | false =>
            apply acts_bind (doc_text_acts os _ deeper)
            intro text
            exact acts_pure _
      intro found
      exact acts_pure _

end Acting

/-- The paths a list of needs is about. -/
def needPaths (needs : List Need) : List Bytes :=
  needs.filterMap fun need =>
    match need.resource with
    | .file path => some path
    | _ => none

theorem one_need (os : Os) (key : String) (rights : Rights) (args : Args) (asked : List Need)
    (required : needs os key rights args = .ok asked) :
    ∃ path, pathArg os args key = .ok path ∧ asked = [⟨.file path, rights⟩] := by
  cases found : pathArg os args key with
  | error error =>
      simp only [needs, found, bind, Except.bind] at required
      contradiction
  | ok path =>
      simp only [needs, found, bind, Except.bind] at required
      cases required
      exact ⟨path, rfl, rfl⟩

/-- A file operation on the path of a need stays under the needs. -/
theorem path_op_acts {α : Type} (path : Bytes) (rights : Rights) (op : FileOp)
    (answer : List FileOp → Except String α) (on : op.paths = [path]) :
    Preserves (ActsUnder (needPaths [⟨.file path, rights⟩])) (fileOp op answer) := by
  apply file_op_acts
  intro other member
  rw [on] at member
  rw [List.mem_singleton.mp member]
  exact under_root path

/-- A standard tool touches only files it needs a capability for, and what lies
under them. -/
theorem standard_tool_acts (os : Os) (rank : Ranking) (tool : Tool)
    (standard : tool ∈ Catalog.standard os rank) (args : Args) (leases : List Lease)
    (asked : List Need) (required : tool.required args = .ok asked) :
    Preserves (ActsUnder (needPaths asked)) (tool.run args leases) := by
  simp only [Catalog.standard, List.mem_cons, List.not_mem_nil, or_false] at standard
  rcases standard with rfl | rfl | rfl | rfl | rfl
  · obtain ⟨path, found, rfl⟩ := one_need os "path" Rights.READ args asked required
    simp only [listDir, found, lift_ok]
    apply acts_bind
    · exact path_op_acts path Rights.READ (.readDir path) _ rfl
    intro names
    exact acts_pure _
  · obtain ⟨path, found, rfl⟩ := one_need os "path" Rights.READ args asked required
    simp only [readFile, found, lift_ok]
    apply acts_bind
    · exact path_op_acts path Rights.READ (.read path) _ rfl
    intro bytes
    exact acts_pure _
  · obtain ⟨dir, found, rfl⟩ := one_need os "dir" Rights.READ args asked required
    simp only [find, found, lift_ok]
    apply acts_bind (lift_arg_acts _ _)
    intro query
    apply acts_bind
    · apply walk_files_acts
      exact under_root dir
    intro files
    exact acts_pure _
  · cases source : pathArg os args "src" with
    | error error =>
        simp only [moveFile, source, bind, Except.bind] at required
        contradiction
    | ok src =>
        cases target : pathArg os args "dst" with
        | error error =>
            simp only [moveFile, source, target, bind, Except.bind] at required
            contradiction
        | ok dst =>
            simp only [moveFile, source, target, bind, Except.bind] at required
            cases required
            simp only [moveFile, source, target, lift_ok]
            apply acts_bind
            · apply file_op_acts
              intro path member
              rcases List.mem_cons.mp member with rfl | other
              · exact ⟨path, by simp [needPaths], [], rfl⟩
              · rw [List.mem_singleton.mp other]
                exact ⟨dst, by simp [needPaths], [], rfl⟩
            intro done
            exact acts_pure _
  · obtain ⟨path, found, rfl⟩ := one_need os "path" Rights.WRITE args asked required
    simp only [deleteFile, found, lift_ok]
    apply acts_bind
    · exact path_op_acts path Rights.WRITE (.removeFile path) _ rfl
    intro done
    exact acts_pure _

end HorizonOs.Aura
