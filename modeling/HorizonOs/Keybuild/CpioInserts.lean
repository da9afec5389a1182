import HorizonOs.Keybuild.CpioListing
import HorizonOs.Lib.PathFrame

/-!
# What an insertion does to an archive's tree

The walk of an insertion, with what it leaves behind when it fails. It leaves nothing, and
one that succeeds loses nothing unless its leaf is put where a directory with something in it
stands.
-/

namespace HorizonOs.Keybuild.Cpio

open HorizonOs.Lib.ByteCodec HorizonOs.Lib.PathFrame HorizonOs.Lib.Runs

set_option autoImplicit false

/-! ## Insertions -/

/-- `dir_at` on the tree itself, and what is done in the directory it returns. The tree is
changed on the way, so an error comes with what the walk has made. -/
def Dir.dirAt (act : Dir → Dir) : List String → Dir → Dir × Except String Unit
  | [], dir => (act dir, .ok ())
  | name :: path, dir =>
      match dir.find name with
      | none =>
          let (sub, done) := Dir.dirAt act path .nil
          (dir.insert name (.dir defaultDirMode sub), done)
      | some (.dir mode entries) =>
          let (sub, done) := Dir.dirAt act path entries
          (dir.insert name (.dir mode sub), done)
      | some _ => (dir, .error "path runs through a non-directory")

/-- One call on the tree. -/
inductive Insert where
  | directory (path : String)
  | file (path : String) (data : Bytes) (mode : UInt32)
  | symlink (path target : String)
  | device (path : String) (mode : UInt32) (kind : NodeKind) (major minor : UInt32)

def Insert.path : Insert → String
  | .directory path => path
  | .file path _ _ => path
  | .symlink path _ => path
  | .device path _ _ _ _ => path

/-- The leaf that `put` is given; `mkdir` puts none. -/
def Insert.leaf : Insert → Option Node
  | .directory _ => none
  | .file _ data mode => some (.file (mode &&& 0o7777) data)
  | .symlink _ target => some (.symlink target)
  | .device _ mode kind major minor => some (.device (mode &&& 0o7777) kind.ifmt major minor)

/-- `put`, and `mkdir` where there is no leaf, with the components of the path. -/
def Dir.putAt (leaf : Option Node) (parts : List String) (dir : Dir) : Dir × Except String Unit :=
  match leaf, parts.getLast? with
  | none, _ => dir.dirAt id parts
  | some node, some name => dir.dirAt (·.insert name node) parts.dropLast
  | some _, none => (dir, .ok ())

def Insert.apply (dir : Dir) (op : Insert) : Dir × Except String Unit :=
  match components op.path with
  | .error text => (dir, .error text)
  | .ok parts => dir.putAt op.leaf parts

def Insert.step (dir : Dir) (op : Insert) : Dir := (op.apply dir).1

/-- The components of the path, where it has any. -/
def Insert.target (op : Insert) : List String := (components op.path).toOption.getD []

/-! ## The walk leaves nothing behind when it fails -/

/-- An entry that is put back where it was changes nothing. -/
theorem insert_same (name : String) (node : Node) (dir : Dir) (valid : dir.Valid)
    (found : dir.find name = some node) : dir.insert name node = dir := by
  match dir with
  | .nil => cases found
  | .cons first firstNode rest =>
      obtain ⟨_, _, sorted, restValid⟩ := valid
      rw [Dir.find] at found
      rw [Dir.insert]
      by_cases same : name = first
      · rw [if_pos same] at found ⊢
        rw [Option.some.inj found, same]
      · rw [if_neg same] at found ⊢
        have after := sorted name (find_names name rest node found)
        rw [if_neg (not_lt.mpr after.le), insert_same name node rest restValid found]

theorem dir_at_nil (act : Dir → Dir) (path : List String) :
    (Dir.dirAt act path .nil).2 = .ok () := by
  induction path with
  | nil => rfl
  | cons name path ih => exact ih

/-- A walk that fails before it makes anything, with the tree it leaves. -/
def settle (dir : Dir) : Except String Dir → Dir × Except String Unit
  | .ok after => (after, .ok ())
  | .error text => (dir, .error text)

theorem dir_at_within (act : Dir → Dir) (path : List String) (dir : Dir) (valid : dir.Valid) :
    dir.dirAt act path = settle dir (dir.within act path) := by
  induction path generalizing dir with
  | nil => rfl
  | cons name path ih =>
      rw [Dir.dirAt, Dir.within]
      cases found : dir.find name with
      | none =>
          have inner := ih .nil trivial
          have succeeds := dir_at_nil act path
          cases walked : Dir.within act path .nil with
          | ok sub =>
              rw [walked] at inner
              simp only [inner]
              rfl
          | error text =>
              rw [inner, walked] at succeeds
              cases succeeds
      | some node =>
          cases node with
          | dir mode entries =>
              have inner := ih entries (valid_find name dir _ valid found).2
              cases walked : Dir.within act path entries with
              | ok sub =>
                  simp only [inner, walked]
                  rfl
              | error text =>
                  simp only [inner, walked, settle, insert_same name _ dir valid found]
                  rfl
          | file mode data => rfl
          | symlink target => rfl
          | device mode ifmt major minor => rfl

theorem dir_at_failed (act : Dir → Dir) (path : List String) (dir : Dir) (valid : dir.Valid)
    (failed : (dir.dirAt act path).2 ≠ .ok ()) : (dir.dirAt act path).1 = dir := by
  rw [dir_at_within act path dir valid] at failed ⊢
  cases walked : dir.within act path with
  | ok after =>
      rw [walked] at failed
      exact absurd rfl failed
  | error text => rfl

theorem valid_dir_at (act : Dir → Dir) (kept : ∀ dir : Dir, dir.Valid → (act dir).Valid)
    (path : List String) (good : ∀ name ∈ path, NameValid name) (dir : Dir) (valid : dir.Valid) :
    (dir.dirAt act path).1.Valid := by
  rw [dir_at_within act path dir valid]
  cases walked : dir.within act path with
  | ok after => exact valid_within act kept path good dir after valid walked
  | error text => exact valid

/-! ## What stands at a path -/

inductive Seen where
  | directory (mode : UInt32)
  | file (mode : UInt32) (data : Bytes)
  | symlink (target : String)
  | device (mode ifmt major minor : UInt32)
  deriving DecidableEq

/-- A node without what lies below it. -/
def Node.seen : Node → Seen
  | .dir mode _ => .directory mode
  | .file mode data => .file mode data
  | .symlink target => .symlink target
  | .device mode ifmt major minor => .device mode ifmt major minor

def Dir.view (dir : Dir) : View String Seen := fun path => (dir.lookup path).map Node.seen

def IsDirectory (item : Seen) : Prop := ∃ mode, item = .directory mode

theorem is_directory (mode : UInt32) : IsDirectory (.directory mode) := ⟨mode, rfl⟩

/-- Nothing can lie below the node. -/
def Node.IsLeaf (node : Node) : Prop := ∀ mode entries, node ≠ .dir mode entries

theorem find_insert (name other : String) (node : Node) (dir : Dir) :
    (dir.insert name node).find other = if other = name then some node else dir.find other := by
  cases dir with
  | nil => rfl
  | cons first firstNode rest =>
      have later := find_insert name other node rest
      rw [Dir.insert]
      by_cases same : name = first
      · rw [if_pos same, Dir.find, Dir.find, same]
        split_ifs <;> rfl
      · rw [if_neg same]
        by_cases before : name < first
        · rw [if_pos before, Dir.find]
        · rw [if_neg before, Dir.find, Dir.find, later]
          by_cases atFirst : other = first
          · rw [if_pos atFirst, if_pos atFirst, if_neg (fun named => same (named.symm.trans atFirst))]
          · rw [if_neg atFirst, if_neg atFirst]

theorem view_nil (path : List String) : Dir.view .nil path = none := by
  cases path <;> rfl

section Children

variable {dir : Dir} {name : String} {node : Node}

theorem beside_insert (name : String) (node : Node) (dir : Dir) :
    Beside dir.view (dir.insert name node).view name := by
  refine ⟨rfl, rfl, fun other rest different => ?_⟩
  rw [Dir.view, Dir.view, Dir.lookup, Dir.lookup, find_insert, if_neg different]

theorem view_key (found : dir.find name = some node) : dir.view [name] = some node.seen := by
  rw [Dir.view, Dir.lookup, found, Option.bind_some, Node.lookup, Option.map_some]

theorem view_missing (missing : dir.find name = none) (rest : List String) :
    dir.view (name :: rest) = none := by
  rw [Dir.view, Dir.lookup, missing, Option.bind_none, Option.map_none]

theorem below_missing (missing : dir.find name = none) : Below dir.view (Dir.view .nil) name :=
  ⟨rfl, fun rest _ => (view_missing missing rest).trans (view_nil rest).symm⟩

theorem below_directory {mode : UInt32} {entries : Dir}
    (found : dir.find name = some (.dir mode entries)) : Below dir.view entries.view name := by
  refine ⟨rfl, fun rest more => ?_⟩
  rw [Dir.view, Dir.lookup, found, Option.bind_some]
  cases rest with
  | nil => exact absurd rfl more
  | cons next rest => rfl

theorem below_leaf (found : dir.find name = some node) (leaf : node.IsLeaf) :
    Below dir.view (Dir.view .nil) name := by
  refine ⟨rfl, fun rest more => ?_⟩
  rw [Dir.view, Dir.lookup, found, Option.bind_some, view_nil]
  cases rest with
  | nil => exact absurd rfl more
  | cons next rest =>
      cases node with
      | dir mode entries => exact absurd rfl (leaf mode entries)
      | file mode data => rfl
      | symlink target => rfl
      | device mode ifmt major minor => rfl

theorem vacant_iff (dir : Dir) : (∀ path, dir.view path = none) ↔ dir = .nil := by
  constructor
  · intro vacant
    cases dir with
    | nil => rfl
    | cons name node rest =>
        have first := vacant [name]
        have here : (Dir.cons name node rest).find name = some node := if_pos rfl
        rw [view_key here] at first
        cases first
  · rintro rfl path
    exact view_nil path

end Children

/-- Where the leaf is to go, there is no directory with something in it. -/
def Dir.Vacant (dir : Dir) (path : List String) : Prop :=
  ∀ mode entries, dir.lookup path = some (.dir mode entries) → entries = .nil

theorem insert_placed_iff (name : String) (leaf : Node) (isLeaf : leaf.IsLeaf) (dir : Dir) :
    Placed IsDirectory leaf.seen dir.view (dir.insert name leaf).view [name] ↔
      dir.Vacant [name] := by
  have beside := beside_insert name leaf dir
  have there : (dir.insert name leaf).find name = some leaf :=
    (find_insert _ _ _ _).trans (if_pos rfl)
  have leafless : ∀ rest, rest ≠ [] → (dir.insert name leaf).view (name :: rest) = none :=
    fun rest more => ((below_leaf there isLeaf).2 rest more).trans (view_nil rest)
  have alone : ∀ node, dir.find name = some node → dir.lookup [name] = some node := by
    intro node found
    rw [Dir.lookup, found, Option.bind_some, Node.lookup]
  cases found : dir.find name with
  | none =>
      rw [placed_here_iff beside (below_missing found) leafless (view_key there)]
      refine iff_of_true view_nil ?_
      intro mode entries standing
      rw [Dir.lookup, found] at standing
      cases standing
  | some node =>
      by_cases file : node.IsLeaf
      · rw [placed_here_iff beside (below_leaf found file) leafless (view_key there)]
        refine iff_of_true view_nil ?_
        intro mode entries standing
        rw [alone node found] at standing
        exact absurd (Option.some.inj standing) (file mode entries)
      · unfold Node.IsLeaf at file
        push Not at file
        obtain ⟨mode, entries, rfl⟩ := file
        rw [placed_here_iff beside (below_directory found) leafless (view_key there), vacant_iff,
          Dir.Vacant, alone _ found]
        constructor
        · intro empty other inner same
          cases same
          exact empty
        · intro empty
          exact empty mode entries rfl

section Walks

variable {act : Dir → Dir} {name : String} {path : List String} {dir : Dir}

theorem dir_at_missing (missing : dir.find name = none) :
    dir.dirAt act (name :: path) =
      (dir.insert name (.dir defaultDirMode (Dir.dirAt act path .nil).1),
        (Dir.dirAt act path .nil).2) := by
  rw [Dir.dirAt, missing]

theorem dir_at_directory {mode : UInt32} {entries : Dir}
    (found : dir.find name = some (.dir mode entries)) :
    dir.dirAt act (name :: path) =
      (dir.insert name (.dir mode (entries.dirAt act path).1), (entries.dirAt act path).2) := by
  rw [Dir.dirAt, found]

theorem dir_at_leaf {node : Node} (found : dir.find name = some node) (leaf : node.IsLeaf) :
    dir.dirAt act (name :: path) = (dir, .error "path runs through a non-directory") := by
  rw [Dir.dirAt, found]
  cases node with
  | dir mode entries => exact absurd rfl (leaf mode entries)
  | file mode data => rfl
  | symlink target => rfl
  | device mode ifmt major minor => rfl

end Walks

theorem dir_at_placed_iff (name : String) (leaf : Node) (isLeaf : leaf.IsLeaf)
    (dirs : List String) (dir : Dir) (done : (dir.dirAt (·.insert name leaf) dirs).2 = .ok ()) :
    Placed IsDirectory leaf.seen dir.view (dir.dirAt (·.insert name leaf) dirs).1.view
      (dirs ++ [name]) ↔ dir.Vacant (dirs ++ [name]) := by
  induction dirs generalizing dir with
  | nil => exact insert_placed_iff name leaf isLeaf dir
  | cons first dirs ih =>
      have inside : dirs ++ [name] ≠ [] := by simp
      rw [List.cons_append]
      cases found : dir.find first with
      | none =>
          rw [dir_at_missing found] at done ⊢
          have there := (find_insert first first
            (.dir defaultDirMode (Dir.dirAt (·.insert name leaf) dirs .nil).1) dir).trans
            (if_pos rfl)
          rw [placed_nested_iff (beside_insert _ _ _) (below_missing found) (below_directory there)
            inside ⟨_, view_key there, .inr ⟨view_missing found [], is_directory _⟩⟩, ih .nil done]
          refine iff_of_true ?_ ?_
          · intro mode entries standing
            cases dirs <;> cases standing
          · intro mode entries standing
            rw [Dir.lookup, found] at standing
            cases standing
      | some node =>
          by_cases file : node.IsLeaf
          · rw [dir_at_leaf found file] at done
            cases done
          · unfold Node.IsLeaf at file
            push Not at file
            obtain ⟨mode, entries, rfl⟩ := file
            rw [dir_at_directory found] at done ⊢
            have there := (find_insert first first
              (.dir mode (entries.dirAt (·.insert name leaf) dirs).1) dir).trans (if_pos rfl)
            have wasThere : dir.view [first] = some (.directory mode) := view_key found
            rw [placed_nested_iff (beside_insert _ _ _) (below_directory found)
              (below_directory there) inside ⟨_, view_key there, .inl wasThere⟩, ih entries done]
            have same : dir.lookup (first :: (dirs ++ [name])) = entries.lookup (dirs ++ [name]) := by
              rw [Dir.lookup, found, Option.bind_some]
              cases dirs <;> rfl
            rw [Dir.Vacant, Dir.Vacant, same]

theorem dir_at_grown (path : List String) (dir : Dir) (done : (dir.dirAt id path).2 = .ok ()) :
    Grown IsDirectory dir.view (dir.dirAt id path).1.view path := by
  induction path generalizing dir with
  | nil => exact Grown.refl dir.view
  | cons first path ih =>
      cases found : dir.find first with
      | none =>
          rw [dir_at_missing found] at done ⊢
          have there := (find_insert first first
            (.dir defaultDirMode (Dir.dirAt id path .nil).1) dir).trans (if_pos rfl)
          exact (ih .nil done).nested (beside_insert _ _ _) (below_missing found)
            (below_directory there)
            ⟨_, view_key there, is_directory _, .inr (view_missing found [])⟩
      | some node =>
          by_cases file : node.IsLeaf
          · rw [dir_at_leaf found file] at done
            cases done
          · unfold Node.IsLeaf at file
            push Not at file
            obtain ⟨mode, entries, rfl⟩ := file
            rw [dir_at_directory found] at done ⊢
            have there := (find_insert first first (.dir mode (entries.dirAt id path).1)
              dir).trans (if_pos rfl)
            have wasThere : dir.view [first] = some (.directory mode) := view_key found
            exact (ih entries done).nested (beside_insert _ _ _) (below_directory found)
              (below_directory there) ⟨_, view_key there, is_directory _, .inl wasThere⟩

/-- A walk that fails has met a leaf, and nothing stands below it. -/
theorem dir_at_failed_lookup (name : String) (act : Dir → Dir) (dirs : List String) (dir : Dir)
    (failed : (dir.dirAt act dirs).2 ≠ .ok ()) : dir.lookup (dirs ++ [name]) = none := by
  induction dirs generalizing dir with
  | nil => exact absurd rfl failed
  | cons first dirs ih =>
      cases found : dir.find first with
      | none =>
          rw [dir_at_missing found] at failed
          exact absurd (dir_at_nil act dirs) failed
      | some node =>
          have more : dirs ++ [name] ≠ [] := by simp
          rw [List.cons_append, Dir.lookup, found, Option.bind_some]
          cases node with
          | dir mode entries =>
              rw [dir_at_directory found] at failed
              have inner := ih entries failed
              cases rest : dirs ++ [name] with
              | nil => exact absurd rest more
              | cons next rest' => rwa [rest] at inner
          | file mode data =>
              cases rest : dirs ++ [name] with
              | nil => exact absurd rest more
              | cons next rest' => rfl
          | symlink target =>
              cases rest : dirs ++ [name] with
              | nil => exact absurd rest more
              | cons next rest' => rfl
          | device mode ifmt major minor =>
              cases rest : dirs ++ [name] with
              | nil => exact absurd rest more
              | cons next rest' => rfl

/-! ## Steps -/

/-- What a success is to do: the leaf is at its path, or a directory there, and nothing else
has changed. -/
def Insert.Lands (dir : Dir) (op : Insert) : Prop :=
  match op.leaf with
  | some leaf => Placed IsDirectory leaf.seen dir.view (op.step dir).view op.target
  | none => Grown IsDirectory dir.view (op.step dir).view op.target

/-- A success loses nothing, and a failure changes nothing at all. -/
def Insert.Keeps (dir : Dir) (op : Insert) : Prop :=
  ((op.apply dir).2 = .ok () → op.Lands dir) ∧ ((op.apply dir).2 ≠ .ok () → op.step dir = dir)

/-- A leaf goes where no directory with something in it stands. -/
def Insert.Safe (dir : Dir) (op : Insert) : Prop := op.leaf ≠ none → dir.Vacant op.target

theorem insert_leaf (op : Insert) (leaf : Node) (puts : op.leaf = some leaf) :
    leaf.IsLeaf ∧ leaf.Valid := by
  cases op with
  | directory path => cases puts
  | file path data mode =>
      cases puts
      exact ⟨fun _ _ same => Node.noConfusion same, permissions_mask mode⟩
  | symlink path target =>
      cases puts
      exact ⟨fun _ _ same => Node.noConfusion same, trivial⟩
  | device path mode kind major minor =>
      cases puts
      exact ⟨fun _ _ same => Node.noConfusion same, permissions_mask mode, kind, rfl⟩

theorem target_of_components {op : Insert} {parts : List String}
    (split : components op.path = .ok parts) : op.target = parts := by
  rw [Insert.target, split]
  rfl

theorem components_last {path : String} {parts : List String} (split : components path = .ok parts) :
    ∃ name, parts.getLast? = some name := by
  rw [components] at split
  split_ifs at split with bad
  cases split
  push Not at bad
  cases last : (((path.toList.splitOn '/').filter (· ≠ [])).map String.ofList).getLast? with
  | some name => exact ⟨name, rfl⟩
  | none => exact absurd (List.map_eq_nil_iff.mp (List.getLast?_eq_none_iff.mp last)) bad.1

/-- A step keeps the rest of the tree exactly when its leaf takes no directory's place. -/
theorem keeps_iff (dir : Dir) (op : Insert) (valid : dir.Valid) :
    op.Keeps dir ↔ op.Safe dir := by
  cases split : components op.path with
  | error text =>
      have same : op.apply dir = (dir, .error text) := by
        rw [Insert.apply, split]
      rw [Insert.Keeps, Insert.step, same]
      refine iff_of_true ⟨?_, fun _ => rfl⟩ ?_
      · intro done
        cases done
      · intro _ mode entries standing
        rw [Insert.target, split] at standing
        cases standing
  | ok parts =>
      have target := target_of_components split
      obtain ⟨name, last⟩ := components_last split
      have whole := List.dropLast_append_getLast? name last
      cases puts : op.leaf with
      | none =>
          have same : op.apply dir = dir.dirAt id parts := by
            rw [Insert.apply, split]
            simp only [puts, Dir.putAt]
          rw [Insert.Keeps, Insert.step, same, Insert.Lands, puts, target, Insert.step, same]
          refine iff_of_true ⟨dir_at_grown parts dir, dir_at_failed id parts dir valid⟩ ?_
          intro putsOne
          exact absurd puts putsOne
      | some leaf =>
          have same : op.apply dir = dir.dirAt (·.insert name leaf) parts.dropLast := by
            rw [Insert.apply, split]
            simp only [puts, Dir.putAt, last]
          have placed := dir_at_placed_iff name leaf (insert_leaf op leaf puts).1 parts.dropLast dir
          rw [whole] at placed
          rw [Insert.Keeps, Insert.step, same, Insert.Lands, puts, target, Insert.step, same,
            Insert.Safe, puts, target]
          by_cases done : (dir.dirAt (·.insert name leaf) parts.dropLast).2 = .ok ()
          · rw [← placed done]
            constructor
            · intro kept _
              exact kept.1 done
            · intro safe
              exact ⟨fun _ => safe (by simp), fun failed => absurd done failed⟩
          · refine iff_of_true ⟨fun succeeded => absurd succeeded done, ?_⟩ ?_
            · exact dir_at_failed _ _ dir valid
            · intro _ mode entries standing
              rw [← whole, dir_at_failed_lookup name _ _ dir done] at standing
              cases standing

theorem keeps_survives {dir : Dir} {op : Insert} (keeps : op.Keeps dir) (path : List String)
    (item : Seen) (other : path ≠ op.target) (stood : dir.view path = some item) :
    (op.step dir).view path = some item := by
  by_cases done : (op.apply dir).2 = .ok ()
  · have lands := keeps.1 done
    cases puts : op.leaf with
    | some leaf =>
        rw [Insert.Lands, puts] at lands
        exact lands.kept path item other stood
    | none =>
        rw [Insert.Lands, puts] at lands
        exact lands.kept path item stood
  · rwa [keeps.2 done]

theorem valid_step (dir : Dir) (op : Insert) (valid : dir.Valid) : (op.step dir).Valid := by
  cases split : components op.path with
  | error text =>
      rw [Insert.step, Insert.apply, split]
      exact valid
  | ok parts =>
      have good := components_valid op.path parts split
      rw [Insert.step, Insert.apply, split]
      cases puts : op.leaf with
      | none =>
          simp only [Dir.putAt]
          exact valid_dir_at id (fun _ whole => whole) parts good dir valid
      | some leaf =>
          obtain ⟨name, last⟩ := components_last split
          simp only [Dir.putAt, last]
          exact valid_dir_at _ (fun other whole => valid_insert name leaf other
            (good name (List.mem_of_getLast? last)) (insert_leaf op leaf puts).2 whole) _
            (fun other member => good other (List.mem_of_mem_dropLast member)) dir valid

/-- The runs of the builder, from the empty tree. -/
def Insert.run (ops : List Insert) : Dir := HorizonOs.Lib.Runs.run Insert.step .nil ops

theorem cpio_inserts_keep_iff (ops : List Insert) :
    Guarded Insert.step Insert.Keeps .nil ops ↔ Guarded Insert.step Insert.Safe .nil ops := by
  constructor
  · exact guarded_steps _ _ _ Dir.Valid (fun dir op valid _ => valid_step dir op valid)
      (fun dir op valid => (keeps_iff dir op valid).mp) _ ops trivial
  · exact guarded_steps _ _ _ Dir.Valid (fun dir op valid _ => valid_step dir op valid)
      (fun dir op valid => (keeps_iff dir op valid).mpr) _ ops trivial

end HorizonOs.Keybuild.Cpio
