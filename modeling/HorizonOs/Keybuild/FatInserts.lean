import HorizonOs.Keybuild.Fat
import HorizonOs.Lib.PathFrame

/-!
# What an insertion does to a FAT tree

An insertion that succeeds puts its file where it says and makes the directories above it,
and one that fails leaves no trace. Both hold of the builder but for two cases: a file put
where a directory with something in it stands, and a bad name behind a directory that is
not there yet.
-/

namespace HorizonOs.Keybuild.Fat

open HorizonOs.Lib.ByteCodec HorizonOs.Lib.PathFrame HorizonOs.Lib.Runs

set_option autoImplicit false

/-! ## What stands at a path -/

inductive Seen where
  | directory
  | file (data : Bytes)
  deriving DecidableEq

def Node.seen : Node → Seen
  | .file data => .file data
  | .dir _ => .directory

/-- The child of a key, with its name as requested. -/
def Dir.child (key : String) : Dir → Option (String × Node)
  | .nil => none
  | .cons other name node rest => if key = other then some (name, node) else rest.child key

/-- The name and the kind of what stands at a path of keys. -/
def Dir.viewAt : List String → Dir → Option (String × Seen)
  | [], _ => none
  | key :: rest, dir =>
      match dir.child key with
      | none => none
      | some (name, .file data) => if rest = [] then some (name, .file data) else none
      | some (name, .dir sub) => if rest = [] then some (name, .directory) else Dir.viewAt rest sub

def Dir.view (dir : Dir) : View String (String × Seen) := fun path => dir.viewAt path

def IsDirectory (item : String × Seen) : Prop := item.2 = .directory

theorem is_directory (name : String) : IsDirectory (name, .directory) := rfl

theorem find_child (key : String) (dir : Dir) : dir.find key = (dir.child key).map Prod.snd := by
  match dir with
  | .nil => rfl
  | .cons other name node rest =>
      rw [Dir.find, Dir.child]
      by_cases same : key = other
      · rw [if_pos same, if_pos same, Option.map_some]
      · rw [if_neg same, if_neg same, find_child key rest]

theorem child_insert (key name other : String) (node : Node) (dir : Dir) :
    (dir.insert key name node).child other =
      if other = key then some (name, node) else dir.child other := by
  match dir with
  | .nil => rfl
  | .cons first firstName firstNode rest =>
      have later := child_insert key name other node rest
      rw [Dir.insert]
      by_cases same : key = first
      · rw [if_pos same, Dir.child, Dir.child, same]
        split_ifs <;> rfl
      · rw [if_neg same]
        by_cases before : key < first
        · rw [if_pos before, Dir.child]
        · rw [if_neg before, Dir.child, Dir.child, later]
          by_cases atFirst : other = first
          · rw [if_pos atFirst, if_pos atFirst, if_neg (fun at_key => same (at_key.symm.trans atFirst))]
          · rw [if_neg atFirst, if_neg atFirst]

theorem child_set_node (key other : String) (node : Node) (dir : Dir) :
    (dir.setNode key node).child other =
      if other = key then (dir.child key).map fun found => (found.1, node) else dir.child other := by
  match dir with
  | .nil =>
      rw [Dir.setNode, Dir.child, Dir.child, Option.map_none, ite_self]
  | .cons first name old rest =>
      have later := child_set_node key other node rest
      rw [Dir.setNode]
      by_cases same : key = first
      · rw [if_pos same, Dir.child, Dir.child, Dir.child, if_pos same, Option.map_some, same]
        split_ifs <;> rfl
      · rw [if_neg same, Dir.child, Dir.child, Dir.child, if_neg same, later]
        by_cases atFirst : other = first
        · rw [if_pos atFirst, if_pos atFirst, if_neg (fun at_key => same (at_key.symm.trans atFirst))]
        · rw [if_neg atFirst, if_neg atFirst]

/-- A node that is put back where it was changes nothing. -/
theorem set_node_same (key : String) (node : Node) (dir : Dir) (found : dir.find key = some node) :
    dir.setNode key node = dir := by
  match dir with
  | .nil => rfl
  | .cons first name old rest =>
      rw [Dir.find] at found
      rw [Dir.setNode]
      by_cases same : key = first
      · rw [if_pos same] at found ⊢
        rw [Option.some.inj found]
      · rw [if_neg same] at found ⊢
        rw [set_node_same key node rest found]

theorem view_congr {before after : Dir} {key : String} (same : after.child key = before.child key)
    (rest : List String) : after.view (key :: rest) = before.view (key :: rest) := by
  rw [Dir.view, Dir.view, Dir.viewAt, Dir.viewAt, same]

theorem beside_of_children {before after : Dir} {key : String}
    (others : ∀ other, other ≠ key → after.child other = before.child other) :
    Beside before.view after.view key :=
  ⟨rfl, rfl, fun other rest different => view_congr (others other different) rest⟩

theorem beside_insert (key name : String) (node : Node) (dir : Dir) :
    Beside dir.view (dir.insert key name node).view key := by
  apply beside_of_children
  intro other different
  rw [child_insert, if_neg different]

theorem beside_set_node (key : String) (node : Node) (dir : Dir) :
    Beside dir.view (dir.setNode key node).view key := by
  apply beside_of_children
  intro other different
  rw [child_set_node, if_neg different]

theorem view_nil (path : List String) : Dir.view .nil path = none := by
  cases path <;> rfl

section Children

variable {dir sub : Dir} {key name : String} {data : Bytes}

theorem view_key (found : dir.child key = some (name, .dir sub)) :
    dir.view [key] = some (name, .directory) := by
  rw [Dir.view, Dir.viewAt, found]
  exact if_pos rfl

theorem view_file (found : dir.child key = some (name, .file data)) :
    dir.view [key] = some (name, .file data) := by
  rw [Dir.view, Dir.viewAt, found]
  exact if_pos rfl

theorem view_missing (missing : dir.child key = none) (rest : List String) :
    dir.view (key :: rest) = none := by
  rw [Dir.view, Dir.viewAt, missing]

theorem below_directory (found : dir.child key = some (name, .dir sub)) :
    Below dir.view sub.view key := by
  refine ⟨rfl, fun rest more => ?_⟩
  rw [Dir.view, Dir.viewAt, found]
  exact if_neg more

theorem below_file (found : dir.child key = some (name, .file data)) :
    Below dir.view (Dir.view .nil) key := by
  refine ⟨rfl, fun rest more => ?_⟩
  rw [Dir.view, Dir.viewAt, found, view_nil]
  exact if_neg more

theorem below_missing (missing : dir.child key = none) :
    Below dir.view (Dir.view .nil) key :=
  ⟨rfl, fun rest _ => (view_missing missing rest).trans (view_nil rest).symm⟩

theorem vacant_iff (dir : Dir) : (∀ path, dir.view path = none) ↔ dir = .nil := by
  constructor
  · intro vacant
    cases dir with
    | nil => rfl
    | cons key name node rest =>
        have first := vacant [key]
        have here : (Dir.cons key name node rest).child key = some (name, node) := if_pos rfl
        cases node with
        | file data =>
            rw [view_file here] at first
            cases first
        | dir sub =>
            rw [view_key here] at first
            cases first
  · rintro rfl path
    exact view_nil path

end Children

/-! ## Insertions -/

/-- One call on the tree. -/
inductive Insert where
  | file (path : String) (data : Bytes)
  | directory (path : String)

def Insert.apply (dir : Dir) : Insert → Dir × Except Error Unit
  | .file path data => dir.insertFile path data
  | .directory path => dir.mkdir path

def Insert.names : Insert → List String
  | .file path _ => components path
  | .directory path => components path

/-- The keys of the path it names. -/
def Insert.target (op : Insert) : List String := op.names.map keyOf

def Insert.step (dir : Dir) (op : Insert) : Dir := (op.apply dir).1

/-- What a success is to do: the file is at its path, or the directory there, and nothing
else has changed. -/
def Insert.Lands (dir : Dir) (op : Insert) : Prop :=
  match op with
  | .file path data => ∃ name, (components path).getLast? = some name ∧
      Placed IsDirectory (name, .file data) dir.view (op.step dir).view op.target
  | .directory _ => Grown IsDirectory dir.view (op.step dir).view op.target

/-- A success loses nothing, and a failure changes nothing at all. -/
def Insert.Keeps (dir : Dir) (op : Insert) : Prop :=
  ((op.apply dir).2 = .ok () → op.Lands dir) ∧ ((op.apply dir).2 ≠ .ok () → op.step dir = dir)

/-- Along the path every name is good from the first directory on that has to be made, and a
file goes where no directory with something in it stands. -/
def Dir.Takes (isFile : Bool) : List String → Dir → Prop
  | [], _ => True
  | name :: rest, dir =>
      if ¬validateName name then True
      else
        match dir.find (keyOf name) with
        | none => ∀ later ∈ rest, validateName later
        | some (.file _) => True
        | some (.dir sub) =>
            if rest = [] then isFile = true → sub = .nil else Dir.Takes isFile rest sub

def Insert.Safe (dir : Dir) : Insert → Prop
  | .file path _ => dir.Takes true (components path)
  | .directory path => dir.Takes false (components path)

/-- What `insert_file` does in the last directory. -/
def placeFile (file : String) (data : Bytes) (last : Dir) : Dir × Except Error Unit :=
  if ¬validateName file then (last, .error (.badName file))
  else (last.insert (keyOf file) file (.file data), .ok ())

/-- What `mkdir` does there. -/
def stay (last : Dir) : Dir × Except Error Unit := (last, .ok ())

section Takes

variable {isFile : Bool} {name : String} {rest : List String} {dir : Dir}

theorem takes_bad (bad : ¬validateName name) : dir.Takes isFile (name :: rest) :=
  (if_pos bad).mpr trivial

theorem takes_missing (good : validateName name) (missing : dir.find (keyOf name) = none) :
    dir.Takes isFile (name :: rest) ↔ ∀ later ∈ rest, validateName later := by
  rw [Dir.Takes, if_neg (not_not.mpr good), missing]

theorem takes_file (data : Bytes) (good : validateName name)
    (found : dir.find (keyOf name) = some (.file data)) : dir.Takes isFile (name :: rest) := by
  rw [Dir.Takes, if_neg (not_not.mpr good), found]
  trivial

theorem takes_directory {sub : Dir} (good : validateName name)
    (found : dir.find (keyOf name) = some (.dir sub)) (more : rest ≠ []) :
    dir.Takes isFile (name :: rest) ↔ sub.Takes isFile rest := by
  rw [Dir.Takes, if_neg (not_not.mpr good), found]
  exact iff_of_eq (if_neg more)

theorem takes_last {sub : Dir} (good : validateName name)
    (found : dir.find (keyOf name) = some (.dir sub)) :
    dir.Takes isFile [name] ↔ (isFile = true → sub = .nil) := by
  rw [Dir.Takes, if_neg (not_not.mpr good), found]
  exact iff_of_eq (if_pos rfl)

/-- An empty directory takes a path of good names. -/
theorem takes_nil (names : List String) (good : ∀ name ∈ names, validateName name) :
    Dir.Takes isFile names .nil := by
  cases names with
  | nil => trivial
  | cons name rest =>
      obtain ⟨first, later⟩ := List.forall_mem_cons.mp good
      exact (takes_missing first rfl).mpr later

end Takes

section Within

variable {act : Dir → Dir × Except Error Unit} {name : String} {path : List String} {dir : Dir}

theorem within_bad (bad : ¬validateName name) :
    dir.within act (name :: path) = (dir, .error (.badName name)) := by
  rw [Dir.within, if_pos bad]

theorem within_missing (good : validateName name) (missing : dir.find (keyOf name) = none) :
    dir.within act (name :: path) =
      (dir.insert (keyOf name) name (.dir (Dir.within act path .nil).1),
        (Dir.within act path .nil).2) := by
  rw [Dir.within, if_neg (not_not.mpr good), missing]

theorem within_file (data : Bytes) (good : validateName name)
    (found : dir.find (keyOf name) = some (.file data)) :
    dir.within act (name :: path) = (dir, .error (.badName name)) := by
  rw [Dir.within, if_neg (not_not.mpr good), found]

theorem within_directory {sub : Dir} (good : validateName name)
    (found : dir.find (keyOf name) = some (.dir sub)) :
    dir.within act (name :: path) =
      (dir.setNode (keyOf name) (.dir (sub.within act path).1), (sub.within act path).2) := by
  rw [Dir.within, if_neg (not_not.mpr good), found]

/-- From an empty directory on, only a name can be at fault. -/
theorem within_nil {good : Prop} (acts : ∀ last, (act last).2 = .ok () ↔ good) :
    (Dir.within act path .nil).2 = .ok () ↔ (∀ name ∈ path, validateName name) ∧ good := by
  induction path with
  | nil => exact (acts .nil).trans (and_iff_right fun _ none => absurd none List.not_mem_nil).symm
  | cons name path ih =>
      by_cases valid : validateName name
      · rw [within_missing valid rfl, ih, List.forall_mem_cons, and_iff_right valid]
      · rw [within_bad valid, List.forall_mem_cons]
        constructor
        · intro done
          cases done
        · intro all
          exact absurd all.1.1 valid

/-- An entry that was not there before. -/
theorem insert_ne (key name : String) (node : Node) (missing : dir.find key = none) :
    dir.insert key name node ≠ dir := by
  intro same
  have there := child_insert key name key node dir
  rw [if_pos rfl, same] at there
  rw [find_child, there] at missing
  cases missing

theorem set_node_eq_iff {key : String} {old node : Node} (found : dir.find key = some old) :
    dir.setNode key node = dir ↔ node = old := by
  constructor
  · intro same
    have there := child_set_node key key node dir
    rw [if_pos rfl, same] at there
    rw [find_child] at found
    cases child : dir.child key with
    | none =>
        rw [child] at found
        cases found
    | some pair =>
        rw [child] at found there
        cases found
        exact (congrArg Prod.snd (Option.some.inj there)).symm
  · rintro rfl
    exact set_node_same key node dir found

end Within

theorem child_of_find {dir : Dir} {key : String} {node : Node} (found : dir.find key = some node) :
    ∃ name, dir.child key = some (name, node) := by
  rw [find_child] at found
  cases child : dir.child key with
  | none =>
      rw [child] at found
      cases found
  | some pair =>
      rw [child] at found
      cases found
      exact ⟨pair.1, rfl⟩

theorem child_of_missing {dir : Dir} {key : String} (missing : dir.find key = none) :
    dir.child key = none := by
  rw [find_child] at missing
  exact Option.map_eq_none_iff.mp missing

/-! ## Files -/

/-- The law of a file's insertion, on what comes of it. -/
def FileKept (leaf : String × Seen) (dir : Dir) (target : List String)
    (outcome : Dir × Except Error Unit) : Prop :=
  (outcome.2 = .ok () → Placed IsDirectory leaf dir.view outcome.1.view target) ∧
    (outcome.2 ≠ .ok () → outcome.1 = dir)

theorem file_kept_refused (leaf : String × Seen) (dir : Dir) (target : List String) (error : Error) :
    FileKept leaf dir target (dir, .error error) := by
  refine ⟨?_, fun _ => rfl⟩
  intro done
  cases done

theorem file_kept_ok_iff {leaf : String × Seen} {dir after : Dir} {target : List String}
    {result : Except Error Unit} (done : result = .ok ()) :
    FileKept leaf dir target (after, result) ↔
      Placed IsDirectory leaf dir.view after.view target := by
  constructor
  · intro kept
    exact kept.1 done
  · intro placed
    exact ⟨fun _ => placed, fun failed => absurd done failed⟩

theorem file_kept_error_iff {leaf : String × Seen} {dir after : Dir} {target : List String}
    {result : Except Error Unit} (failed : result ≠ .ok ()) :
    FileKept leaf dir target (after, result) ↔ after = dir := by
  constructor
  · intro kept
    exact kept.2 failed
  · intro same
    exact ⟨fun done => absurd done failed, fun _ => same⟩

theorem place_file_kept_iff (file : String) (data : Bytes) (dir : Dir) :
    FileKept (file, .file data) dir [keyOf file] (placeFile file data dir) ↔
      dir.Takes true [file] := by
  by_cases good : validateName file
  case neg =>
    rw [placeFile, if_pos good]
    exact iff_of_true (file_kept_refused _ _ _ _) (takes_bad good)
  rw [placeFile, if_neg (not_not.mpr good), file_kept_ok_iff rfl]
  have beside := beside_insert (keyOf file) file (.file data) dir
  have there : (dir.insert (keyOf file) file (.file data)).child (keyOf file) =
      some (file, .file data) := (child_insert _ _ _ _ _).trans (if_pos rfl)
  have leafless : ∀ rest, rest ≠ [] →
      (dir.insert (keyOf file) file (.file data)).view (keyOf file :: rest) = none :=
    fun rest more => ((below_file there).2 rest more).trans (view_nil rest)
  cases found : dir.find (keyOf file) with
  | none =>
      have below := below_missing (child_of_missing found)
      rw [placed_here_iff beside below leafless (view_file there), takes_missing good found]
      exact iff_of_true view_nil fun _ none => absurd none List.not_mem_nil
  | some node =>
      obtain ⟨name, child⟩ := child_of_find found
      cases node with
      | file old =>
          rw [placed_here_iff beside (below_file child) leafless (view_file there)]
          exact iff_of_true view_nil (takes_file old good found)
      | dir sub =>
          rw [placed_here_iff beside (below_directory child) leafless (view_file there),
            vacant_iff, takes_last good found]
          exact ⟨fun empty _ => empty, fun empty => empty rfl⟩

theorem place_file_ok (file : String) (data : Bytes) (last : Dir) :
    (placeFile file data last).2 = .ok () ↔ validateName file := by
  by_cases good : validateName file
  · rw [placeFile, if_neg (not_not.mpr good)]
    exact iff_of_true rfl good
  · rw [placeFile, if_pos good]
    refine iff_of_false ?_ good
    intro done
    cases done

theorem within_kept_iff (file : String) (data : Bytes) (dirs : List String) (dir : Dir) :
    FileKept (file, .file data) dir ((dirs ++ [file]).map keyOf)
        (dir.within (placeFile file data) dirs) ↔ dir.Takes true (dirs ++ [file]) := by
  induction dirs generalizing dir with
  | nil => exact place_file_kept_iff file data dir
  | cons name dirs ih =>
      have inside : (dirs ++ [file]).map keyOf ≠ [] := by simp
      have more : dirs ++ [file] ≠ [] := by simp
      rw [List.cons_append, List.map_cons]
      by_cases good : validateName name
      case neg =>
        rw [within_bad good]
        exact iff_of_true (file_kept_refused _ _ _ _) (takes_bad good)
      cases found : dir.find (keyOf name) with
      | none =>
          -- A new directory: what follows succeeds exactly when no name behind it is bad.
          have succeeds : (Dir.within (placeFile file data) dirs .nil).2 = .ok () ↔
              ∀ later ∈ dirs ++ [file], validateName later := by
            rw [within_nil (place_file_ok file data), List.forall_mem_append,
              List.forall_mem_singleton]
          rw [within_missing good found, takes_missing good found, ← succeeds]
          by_cases done : (Dir.within (placeFile file data) dirs .nil).2 = .ok ()
          · have inner := (ih .nil).mpr (takes_nil _ (succeeds.mp done))
            have there := (child_insert (keyOf name) name (keyOf name)
              (.dir (Dir.within (placeFile file data) dirs .nil).1) dir).trans (if_pos rfl)
            rw [file_kept_ok_iff done, placed_nested_iff (beside_insert _ _ _ _)
              (below_missing (child_of_missing found)) (below_directory there) inside
              ⟨_, view_key there, .inr ⟨view_missing (child_of_missing found) [],
                is_directory name⟩⟩]
            exact iff_of_true (inner.1 done) done
          · rw [file_kept_error_iff done]
            exact iff_of_false (insert_ne _ _ _ found) done
      | some node =>
          cases node with
          | file old =>
              rw [within_file old good found]
              exact iff_of_true (file_kept_refused _ _ _ _) (takes_file old good found)
          | dir sub =>
              rw [within_directory good found, takes_directory good found more, ← ih sub]
              obtain ⟨old, child⟩ := child_of_find found
              have there : (dir.setNode (keyOf name)
                  (.dir (sub.within (placeFile file data) dirs).1)).child (keyOf name) =
                  some (old, .dir (sub.within (placeFile file data) dirs).1) := by
                rw [child_set_node, if_pos rfl, child, Option.map_some]
              by_cases done : (sub.within (placeFile file data) dirs).2 = .ok ()
              · rw [file_kept_ok_iff done, placed_nested_iff (beside_set_node _ _ _)
                  (below_directory child) (below_directory there) inside
                  ⟨_, view_key there, .inl (view_key child)⟩]
                exact (file_kept_ok_iff done).symm
              · rw [file_kept_error_iff done, set_node_eq_iff found]
                refine Iff.trans ?_ (file_kept_error_iff done).symm
                exact ⟨fun same => Node.dir.inj same, fun same => congrArg Node.dir same⟩

/-! ## Directories -/

theorem stay_ok (last : Dir) : (stay last).2 = .ok () ↔ True := iff_of_true rfl trivial

/-- A directory's insertion, where it succeeds, only makes directories. -/
theorem within_grown (path : List String) (dir : Dir) (done : (dir.within stay path).2 = .ok ()) :
    Grown IsDirectory dir.view (dir.within stay path).1.view (path.map keyOf) := by
  induction path generalizing dir with
  | nil => exact Grown.refl dir.view
  | cons name path ih =>
      rw [List.map_cons]
      by_cases good : validateName name
      case neg =>
        rw [within_bad good] at done
        cases done
      cases found : dir.find (keyOf name) with
      | none =>
          rw [within_missing good found] at done ⊢
          have there := (child_insert (keyOf name) name (keyOf name)
            (.dir (Dir.within stay path .nil).1) dir).trans (if_pos rfl)
          exact (ih .nil done).nested (beside_insert _ _ _ _)
            (below_missing (child_of_missing found)) (below_directory there)
            ⟨_, view_key there, is_directory name, .inr (view_missing (child_of_missing found) [])⟩
      | some node =>
          cases node with
          | file old =>
              rw [within_file old good found] at done
              cases done
          | dir sub =>
              rw [within_directory good found] at done ⊢
              obtain ⟨old, child⟩ := child_of_find found
              have there : (dir.setNode (keyOf name) (.dir (sub.within stay path).1)).child
                  (keyOf name) = some (old, .dir (sub.within stay path).1) := by
                rw [child_set_node, if_pos rfl, child, Option.map_some]
              exact (ih sub done).nested (beside_set_node _ _ _) (below_directory child)
                (below_directory there)
                ⟨_, view_key there, is_directory old, .inl (view_key child)⟩

/-- One that fails leaves the tree as it was exactly when it has made no directory. -/
theorem within_stay_iff (path : List String) (dir : Dir) :
    ((dir.within stay path).2 ≠ .ok () → (dir.within stay path).1 = dir) ↔
      dir.Takes false path := by
  induction path generalizing dir with
  | nil => exact iff_of_true (fun _ => rfl) trivial
  | cons name path ih =>
      by_cases good : validateName name
      case neg =>
        rw [within_bad good]
        exact iff_of_true (fun _ => rfl) (takes_bad good)
      cases found : dir.find (keyOf name) with
      | none =>
          rw [within_missing good found, takes_missing good found]
          have succeeds : (Dir.within _ path .nil).2 = .ok () ↔ _ := within_nil stay_ok
          rw [and_true] at succeeds
          rw [← succeeds]
          constructor
          · intro unchanged
            by_contra failed
            exact insert_ne _ _ _ found (unchanged failed)
          · intro done failed
            exact absurd done failed
      | some node =>
          cases node with
          | file old =>
              rw [within_file old good found]
              exact iff_of_true (fun _ => rfl) (takes_file old good found)
          | dir sub =>
              rw [within_directory good found, set_node_eq_iff found]
              by_cases last : path = []
              · rw [last, takes_last good found]
                refine iff_of_true (fun _ => rfl) ?_
                intro isFile
                cases isFile
              · rw [takes_directory good found last, ← ih sub]
                exact imp_congr_right fun _ => ⟨Node.dir.inj, congrArg Node.dir⟩

/-! ## Steps -/

theorem insert_file_eq (dir : Dir) (path : String) (data : Bytes) (file : String)
    (last : (components path).getLast? = some file) :
    dir.insertFile path data = dir.within (placeFile file data) (components path).dropLast := by
  rw [Dir.insertFile, last]
  rfl

theorem insert_file_empty (dir : Dir) (path : String) (data : Bytes)
    (none : (components path).getLast? = none) :
    dir.insertFile path data = (dir, .error (.badName path)) := by
  rw [Dir.insertFile, none]

/-- A step keeps the rest of the tree exactly when the path takes it. -/
theorem keeps_iff (dir : Dir) (op : Insert) : op.Keeps dir ↔ op.Safe dir := by
  cases op with
  | directory path =>
      rw [Insert.Keeps, Insert.Safe, ← within_stay_iff]
      exact and_iff_right (within_grown (components path) dir)
  | file path data =>
      cases last : (components path).getLast? with
      | none =>
          have empty : components path = [] := List.getLast?_eq_none_iff.mp last
          rw [Insert.Keeps, Insert.step, Insert.apply, insert_file_empty dir path data last,
            Insert.Safe, empty]
          refine iff_of_true ⟨?_, fun _ => rfl⟩ trivial
          intro done
          cases done
      | some file =>
          have whole := List.dropLast_append_getLast? file last
          have kept := within_kept_iff file data (components path).dropLast dir
          rw [whole] at kept
          rw [Insert.Safe, ← kept, Insert.Keeps, Insert.step, Insert.apply,
            insert_file_eq dir path data file last, FileKept, Insert.Lands, Insert.step,
            Insert.apply, insert_file_eq dir path data file last, last]
          apply and_congr_left
          intro _
          apply imp_congr_right
          intro _
          constructor
          · rintro ⟨name, same, placed⟩
            cases same
            exact placed
          · intro placed
            exact ⟨file, rfl, placed⟩

theorem keeps_survives {dir : Dir} {op : Insert} (keeps : op.Keeps dir) (path : List String)
    (item : String × Seen) (other : path ≠ op.target) (stood : dir.view path = some item) :
    (op.step dir).view path = some item := by
  by_cases done : (op.apply dir).2 = .ok ()
  · have lands := keeps.1 done
    cases op with
    | file path data =>
        obtain ⟨_, _, placed⟩ := lands
        exact placed.kept _ item other stood
    | directory path => exact lands.kept _ item stood
  · rwa [keeps.2 done]

/-- The runs of the builder: from the empty tree, what a failed call leaves included. -/
def Insert.run (ops : List Insert) : Dir := HorizonOs.Lib.Runs.run Insert.step .nil ops

theorem fat_inserts_keep_iff (ops : List Insert) :
    Guarded Insert.step Insert.Keeps .nil ops ↔ Guarded Insert.step Insert.Safe .nil ops := by
  constructor
  · exact guarded_steps _ _ _ (fun _ => True) (fun _ _ _ _ => trivial)
      (fun dir op _ => (keeps_iff dir op).mp) _ ops trivial
  · exact guarded_steps _ _ _ (fun _ => True) (fun _ _ _ _ => trivial)
      (fun dir op _ => (keeps_iff dir op).mpr) _ ops trivial

end HorizonOs.Keybuild.Fat
