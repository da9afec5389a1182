import HorizonOs.Lib.LexicalPath
import HorizonOs.Lib.Runs
import Mathlib.Data.List.TakeWhile

/-!
# A table of mounts

What a path names depends on the mounts made so far: the latest at or above it decides, and
hides what earlier ones put there. Directories are made where a path leads at that moment; a
bind shows a place a second time with all that is mounted under it, a move takes a mount and
all that is mounted under it elsewhere.
-/

namespace HorizonOs.Lib.MountTable

open HorizonOs.Lib.LexicalPath HorizonOs.Lib.Runs

set_option autoImplicit false

/-- Why an operation fails. -/
inductive Failure where
  | noTarget
  | noSource
  | readOnly
  | busy
  | notMounted
  | loop
  deriving DecidableEq

/-- A directory of a filesystem, shown at a place. -/
structure Mounted (Name Fs : Type) where
  point : List Name
  fs : Fs
  root : List Name
  rdonly : Bool
  deriving DecidableEq

/-- The mounts, latest first, and the directories of each filesystem below its root. -/
structure Table (Name Fs : Type) where
  mounts : List (Mounted Name Fs)
  dirs : Fs → List Name → Bool

namespace Table

variable {Name Fs : Type} [DecidableEq Name]

/-- The mount that decides about a place. -/
def visible (table : Table Name Fs) (place : List Name) : Option (Mounted Name Fs) :=
  table.mounts.find? fun mount => mount.point.isPrefixOf place

/-- The directory of a filesystem that a place shows. -/
def shown (mount : Mounted Name Fs) (place : List Name) : List Name :=
  mount.root ++ place.drop mount.point.length

def holds (table : Table Name Fs) (fs : Fs) (dir : List Name) : Bool :=
  dir.isEmpty || table.dirs fs dir

def isDir (table : Table Name Fs) (place : List Name) : Bool :=
  match table.visible place with
  | none => false
  | some mount => table.holds mount.fs (shown mount place)

/-- The mounts that are under a place, but above the one that shows it. -/
def under (table : Table Name Fs) (place : List Name) : List (Mounted Name Fs) :=
  (table.mounts.takeWhile fun mount => !mount.point.isPrefixOf place).filter fun mount =>
    place.isPrefixOf mount.point

/-- A mount under one place, under another. -/
def relocate (source target : List Name) (mount : Mounted Name Fs) : Mounted Name Fs :=
  { mount with point := target ++ mount.point.drop source.length }

/-- A recursive bind. -/
def bind (table : Table Name Fs) (source target : List Name) :
    Except Failure (Table Name Fs) :=
  match table.visible source with
  | none => .error .noSource
  | some mount =>
      if ¬table.isDir source then .error .noSource
      else if ¬table.isDir target then .error .noTarget
      else .ok { table with
        mounts := (table.under source).map (relocate source target) ++
          ⟨target, mount.fs, shown mount source, mount.rdonly⟩ :: table.mounts }

/-- Take a mount with all that is under it elsewhere, but not below itself. -/
def move (table : Table Name Fs) (source target : List Name) :
    Except Failure (Table Name Fs) :=
  match table.visible source with
  | none => .error .notMounted
  | some mount =>
      if mount.point ≠ source then .error .notMounted
      else if ¬table.isDir target then .error .noTarget
      else if source.isPrefixOf target then .error .loop
      else
        let newer := table.mounts.takeWhile fun mount => !mount.point.isPrefixOf source
        let older := table.mounts.dropWhile fun mount => !mount.point.isPrefixOf source
        .ok { table with
          mounts := (table.under source).map (relocate source target) ++
            { mount with point := target } ::
              (newer.filter (fun mount => !source.isPrefixOf mount.point) ++ older.tail) }

/-- What a place shows: a directory of a filesystem, and whether it is read-only here. -/
def sees (table : Table Name Fs) (place : List Name) : Option (Fs × List Name × Bool) :=
  (table.visible place).map fun mount => (mount.fs, shown mount place, mount.rdonly)

/-- Make the mount at a place read-only; those below it stay as they are. -/
def remount (table : Table Name Fs) (place : List Name) : Except Failure (Table Name Fs) :=
  match table.visible place with
  | none => .error .notMounted
  | some mount =>
      if mount.point ≠ place then .error .notMounted
      else
        let newer := table.mounts.takeWhile fun mount => !mount.point.isPrefixOf place
        let older := table.mounts.dropWhile fun mount => !mount.point.isPrefixOf place
        .ok { table with mounts := newer ++ { mount with rdonly := true } :: older.tail }

/-- Make what is mounted at a place the root, and show the old root below it. -/
def pivot (table : Table Name Fs) (newRoot putOld : List Name) :
    Except Failure (Table Name Fs) :=
  match table.visible newRoot, table.visible [] with
  | some mount, some root =>
      if mount.point ≠ newRoot ∨ newRoot = [] then .error .notMounted
      else if ¬table.isDir (newRoot ++ putOld) then .error .noTarget
      else
        let above := table.mounts.takeWhile fun mount => !mount.point.isEmpty
        .ok { table with
          mounts :=
            ((above.filter fun mount => !newRoot.isPrefixOf mount.point).map
              (relocate [] putOld)) ++ { root with point := putOld } ::
              (above.filter fun mount => newRoot.isPrefixOf mount.point).map
                (relocate newRoot []) }
  | _, _ => .error .notMounted

/-- Take a mount away with all that is mounted below it. -/
def detach (table : Table Name Fs) (place : List Name) : Except Failure (Table Name Fs) :=
  match table.visible place with
  | none => .error .notMounted
  | some mount =>
      if mount.point ≠ place then .error .notMounted
      else
        let newer := table.mounts.takeWhile fun mount => !mount.point.isPrefixOf place
        let older := table.mounts.dropWhile fun mount => !mount.point.isPrefixOf place
        .ok { table with
          mounts := newer.filter (fun mount => !place.isPrefixOf mount.point) ++ older.tail }

variable [DecidableEq Fs]

/-- Mount over a place that is a directory, where the same is not mounted already. -/
def mount (table : Table Name Fs) (mounted : Mounted Name Fs) : Except Failure (Table Name Fs) :=
  if ¬table.isDir mounted.point then .error .noTarget
  else if ∃ there ∈ table.visible mounted.point, there.point = mounted.point ∧
      there.fs = mounted.fs ∧ there.root = mounted.root then .error .busy
  else .ok { table with mounts := mounted :: table.mounts }

/-- Make one directory, where there is none. -/
def makeDir (table : Table Name Fs) (place : List Name) : Except Failure (Table Name Fs) :=
  match table.visible place with
  | none => .error .noTarget
  | some mount =>
      if table.holds mount.fs (shown mount place) then .ok table
      else if mount.rdonly then .error .readOnly
      else .ok { table with
        dirs := fun fs dir =>
          if fs = mount.fs ∧ dir = shown mount place then true else table.dirs fs dir }

/-- Make every directory on a walk. -/
def makeDirs (table : Table Name Fs) (place : List Name) :
    List (Step Name) → Except Failure (Table Name Fs)
  | [] => table.makeDir place
  | step :: steps => do
      let table ← table.makeDir place
      table.makeDirs (stepFrom place step) steps

end Table

/-! ## What decides about a place -/

section Places

variable {Name Fs : Type} [DecidableEq Name] {table after : Table Name Fs}
  {source target place : List Name}

theorem is_dir_of_visible {mount : Mounted Name Fs} (visible : table.visible place = some mount) :
    table.isDir place = table.holds mount.fs (Table.shown mount place) := by
  rw [Table.isDir, visible]

theorem visible_above {mount : Mounted Name Fs} (visible : table.visible place = some mount) :
    mount ∈ table.mounts ∧ mount.point <+: place := by
  rw [Table.visible] at visible
  have found := List.find?_some visible
  exact ⟨List.mem_of_find?_eq_some visible, List.isPrefixOf_iff_prefix.mp found⟩

/-- Mounts elsewhere decide nothing here. -/
theorem visible_elsewhere (newer older : List (Mounted Name Fs)) (dirs : Fs → List Name → Bool)
    (elsewhere : ∀ mount ∈ newer, ¬mount.point <+: place) :
    Table.visible ⟨newer ++ older, dirs⟩ place = Table.visible ⟨older, dirs⟩ place := by
  have none : newer.find? (fun mount => mount.point.isPrefixOf place) = none := by
    apply List.find?_eq_none.mpr
    intro mount member
    rw [List.isPrefixOf_iff_prefix]
    exact elsewhere mount member
  simp only [Table.visible]
  rw [List.find?_append, none, Option.none_or]

theorem visible_first (mount : Mounted Name Fs) (rest : List (Mounted Name Fs))
    (dirs : Fs → List Name → Bool) (above : mount.point <+: place) :
    Table.visible ⟨mount :: rest, dirs⟩ place = some mount := by
  have first : mount.point.isPrefixOf place = true := List.isPrefixOf_iff_prefix.mpr above
  simp only [Table.visible, List.find?_cons, first]

/-- So does one mount elsewhere. -/
theorem visible_past (mount : Mounted Name Fs) (rest : List (Mounted Name Fs))
    (dirs : Fs → List Name → Bool) (elsewhere : ¬mount.point <+: place) :
    Table.visible ⟨mount :: rest, dirs⟩ place = Table.visible ⟨rest, dirs⟩ place := by
  have missed : mount.point.isPrefixOf place = false := by
    rwa [← Bool.not_eq_true, List.isPrefixOf_iff_prefix]
  simp only [Table.visible, List.find?_cons, missed]

omit [DecidableEq Name] in
/-- What a place shows of a mount right there. -/
theorem shown_point (mount : Mounted Name Fs) : Table.shown mount mount.point = mount.root := by
  rw [Table.shown, List.drop_length, List.append_nil]


end Places

section Below

variable {Name Fs : Type} [DecidableEq Name] {table after : Table Name Fs}

/-- Below a place where something is mounted, what decides is mounted there or below. -/
theorem visible_below {place deep : List Name} {mount : Mounted Name Fs}
    (visible : table.visible place = some mount) (point : mount.point = place)
    (below : place <+: deep) :
    ∃ deeper, table.visible deep = some deeper ∧ place <+: deeper.point := by
  rw [Table.visible, List.find?_eq_some_iff_append] at visible
  obtain ⟨_, newer, older, split, apart⟩ := visible
  have above : mount.point <+: deep := by rwa [point]
  have whole : table.visible deep =
      (Table.visible ⟨newer, table.dirs⟩ deep).or (some mount) := by
    have found := visible_first mount older table.dirs above
    rw [Table.visible, split, List.find?_append]
    exact congrArg _ found
  cases sooner : Table.visible ⟨newer, table.dirs⟩ deep with
  | none =>
      rw [sooner, Option.none_or] at whole
      exact ⟨mount, whole, point ▸ List.prefix_rfl⟩
  | some deeper =>
      rw [sooner, Option.some_or] at whole
      refine ⟨deeper, whole, ?_⟩
      obtain ⟨member, holds⟩ := visible_above sooner
      have missed := apart deeper member
      rw [Bool.not_eq_true', ← Bool.not_eq_true, List.isPrefixOf_iff_prefix] at missed
      rcases List.prefix_or_prefix_of_prefix holds below with shorter | longer
      · exact absurd shorter missed
      · exact longer

/-- Where the same mount decides and no directory is gone, directories are what they were. -/
theorem is_dir_kept {place : List Name} (visible : after.visible place = table.visible place)
    (kept : ∀ fs dir, table.holds fs dir = true → after.holds fs dir = true)
    (there : table.isDir place = true) : after.isDir place = true := by
  rw [Table.isDir] at there ⊢
  rw [visible]
  cases found : table.visible place with
  | none =>
      rw [found] at there
      cases there
  | some mount =>
      rw [found] at there
      exact kept _ _ there

end Below

/-! ## What an operation does -/

section Operations

variable {Name Fs : Type} [DecidableEq Name] {table after : Table Name Fs}
  {source target place : List Name}

/-- All that a bind does. -/
theorem bind_ok_cases (bound : table.bind source target = .ok after) :
    ∃ mount, table.visible source = some mount ∧ table.isDir target = true ∧
      after = { table with
        mounts := (table.under source).map (Table.relocate source target) ++
          ⟨target, mount.fs, Table.shown mount source, mount.rdonly⟩ :: table.mounts } := by
  rw [Table.bind] at bound
  cases visible : table.visible source with
  | none =>
      rw [visible] at bound
      cases bound
  | some mount =>
      rw [visible] at bound
      simp only at bound
      split_ifs at bound with from_dir to_dir
      · cases bound
        exact ⟨mount, rfl, to_dir, rfl⟩

/-- Everything relocated stands below the new place. -/
theorem relocated_below (mount : Mounted Name Fs)
    (member : mount ∈ (table.under source).map (Table.relocate source target)) :
    target <+: mount.point ∧ mount.point ≠ target := by
  obtain ⟨old, found, rfl⟩ := List.mem_map.mp member
  obtain ⟨newer, below⟩ := List.mem_filter.mp found
  have apart := List.mem_takeWhile_imp newer
  rw [Bool.not_eq_true', ← Bool.not_eq_true, List.isPrefixOf_iff_prefix] at apart
  rw [List.isPrefixOf_iff_prefix] at below
  obtain ⟨rest, whole⟩ := below
  have dropped : old.point.drop source.length = rest := by
    rw [← whole, List.drop_left]
  constructor
  · exact List.prefix_append _ _
  · intro same
    have none : old.point.drop source.length = [] := List.append_right_eq_self.mp same
    apply apart
    rw [← whole, ← dropped, none, List.append_nil]

/-- Every mount relocated keeps what it shows. -/
theorem relocated_keeps (mount : Mounted Name Fs)
    (member : mount ∈ (table.under source).map (Table.relocate source target)) :
    ∃ old ∈ table.mounts, mount.fs = old.fs ∧ mount.rdonly = old.rdonly := by
  obtain ⟨old, found, rfl⟩ := List.mem_map.mp member
  have newer := (List.mem_filter.mp found).1
  exact ⟨old, (List.takeWhile_sublist _).mem newer, rfl, rfl⟩

theorem relocated_elsewhere (elsewhere : ¬target <+: place) (mount : Mounted Name Fs)
    (member : mount ∈ (table.under source).map (Table.relocate source target)) :
    ¬mount.point <+: place :=
  fun above => elsewhere ((relocated_below mount member).1.trans above)

theorem relocated_not_at (mount : Mounted Name Fs)
    (member : mount ∈ (table.under source).map (Table.relocate source target)) :
    ¬mount.point <+: target := by
  intro above
  obtain ⟨below, apart⟩ := relocated_below mount member
  exact apart (above.eq_of_length_le below.length_le)

/-- A bind decides nothing outside of its target. -/
theorem bind_elsewhere (bound : table.bind source target = .ok after)
    (elsewhere : ¬target <+: place) : after.visible place = table.visible place := by
  obtain ⟨mount, _, _, rfl⟩ := bind_ok_cases bound
  rw [visible_elsewhere _ _ _ (relocated_elsewhere elsewhere)]
  exact visible_past _ _ _ elsewhere

/-- The target of a bind shows what its source did. -/
theorem bind_at (bound : table.bind source target = .ok after) :
    ∃ mount, table.visible source = some mount ∧ after.visible target =
      some ⟨target, mount.fs, Table.shown mount source, mount.rdonly⟩ := by
  obtain ⟨mount, visible, _, rfl⟩ := bind_ok_cases bound
  refine ⟨mount, visible, ?_⟩
  rw [visible_elsewhere _ _ _ relocated_not_at]
  exact visible_first _ _ _ List.prefix_rfl

/-- All that a move does. -/
theorem move_ok_cases (moved : table.move source target = .ok after) :
    ∃ newer mount older, table.mounts = newer ++ mount :: older ∧ mount.point = source ∧
      (∀ other ∈ newer, ¬other.point <+: source) ∧ table.visible source = some mount ∧
      table.isDir target = true ∧
      after = { table with
        mounts := (table.under source).map (Table.relocate source target) ++
          { mount with point := target } ::
            (newer.filter (fun mount => !source.isPrefixOf mount.point) ++ older) } := by
  rw [Table.move] at moved
  cases visible : table.visible source with
  | none =>
      rw [visible] at moved
      cases moved
  | some mount =>
      rw [visible] at moved
      simp only at moved
      split_ifs at moved with point to_dir loop
      cases moved
      rw [Table.visible, List.find?_eq_some_iff_append] at visible
      obtain ⟨first, newer, older, split, apart⟩ := visible
      have stop : ¬(!mount.point.isPrefixOf source) = true := by rw [first]; decide
      have taken : table.mounts.takeWhile (fun mount => !mount.point.isPrefixOf source) = newer := by
        rw [split, List.takeWhile_append_of_pos apart, List.takeWhile_cons, if_neg stop,
          List.append_nil]
      have dropped : table.mounts.dropWhile (fun mount => !mount.point.isPrefixOf source) =
          mount :: older := by
        rw [split, List.dropWhile_append_of_pos apart, List.dropWhile_cons, if_neg stop]
      refine ⟨newer, mount, older, split, not_not.mp point, ?_, rfl, to_dir, ?_⟩
      · intro other member above
        have missed := apart other member
        rw [List.isPrefixOf_iff_prefix.mpr above] at missed
        cases missed
      · rw [taken, dropped, List.tail_cons]

/-- Taking away what is below a place away from another does not change what decides there. -/
theorem visible_filtered (mounts : List (Mounted Name Fs)) (dirs : Fs → List Name → Bool)
    (elsewhere : ¬source <+: place) :
    Table.visible ⟨mounts.filter (fun mount => !source.isPrefixOf mount.point), dirs⟩ place =
      Table.visible ⟨mounts, dirs⟩ place := by
  simp only [Table.visible, List.find?_filter]
  congr 1
  funext mount
  cases above : mount.point.isPrefixOf place with
  | false => simp
  | true =>
      have outside : source.isPrefixOf mount.point = false := by
        rw [← Bool.not_eq_true, List.isPrefixOf_iff_prefix]
        intro below
        exact elsewhere (below.trans (List.isPrefixOf_iff_prefix.mp above))
      simp [outside]

theorem visible_append (newer older : List (Mounted Name Fs)) (dirs : Fs → List Name → Bool) :
    Table.visible ⟨newer ++ older, dirs⟩ place =
      (Table.visible ⟨newer, dirs⟩ place).or (Table.visible ⟨older, dirs⟩ place) :=
  List.find?_append

/-- A move decides nothing outside of its source and its target. -/
theorem move_elsewhere (moved : table.move source target = .ok after)
    (source_elsewhere : ¬source <+: place) (target_elsewhere : ¬target <+: place) :
    after.visible place = table.visible place := by
  obtain ⟨newer, mount, older, split, point, _, _, _, rfl⟩ := move_ok_cases moved
  have before : table.visible place = Table.visible ⟨newer ++ mount :: older, table.dirs⟩ place := by
    rw [← split]
  have gone : ¬mount.point <+: place := by rwa [point]
  rw [before, visible_elsewhere _ _ _ (relocated_elsewhere target_elsewhere),
    visible_past _ _ _ target_elsewhere, visible_append, visible_filtered _ _ source_elsewhere,
    visible_append, visible_past mount older table.dirs gone]

/-- The target of a move shows what was mounted at its source. -/
theorem move_at (moved : table.move source target = .ok after) :
    ∃ mount, table.visible source = some mount ∧ mount.point = source ∧
      after.visible target = some { mount with point := target } := by
  obtain ⟨newer, mount, older, _, point, _, visible, _, rfl⟩ := move_ok_cases moved
  refine ⟨mount, visible, point, ?_⟩
  rw [visible_elsewhere _ _ _ relocated_not_at]
  exact visible_first _ _ _ List.prefix_rfl

/-- A move ends well where something is mounted, and its target is a directory elsewhere. -/
theorem move_ends {mount : Mounted Name Fs} (visible : table.visible source = some mount)
    (point : mount.point = source) (to_dir : table.isDir target = true)
    (elsewhere : ¬source <+: target) : ∃ after, table.move source target = .ok after := by
  rw [← List.isPrefixOf_iff_prefix] at elsewhere
  rw [Table.move, visible]
  simp only [point, to_dir, elsewhere, ne_eq, not_true_eq_false, if_false]
  exact ⟨_, rfl⟩

/-! ### What all mounts have in common -/

/-- What holds of a filesystem with its access holds of it wherever it is bound. -/
theorem bind_all (property : Fs → Bool → Prop)
    (all : ∀ mount ∈ table.mounts, property mount.fs mount.rdonly)
    (bound : table.bind source target = .ok after) :
    ∀ mount ∈ after.mounts, property mount.fs mount.rdonly := by
  obtain ⟨mount, visible, _, rfl⟩ := bind_ok_cases bound
  intro other member
  rcases List.mem_append.mp member with relocated | rest
  · obtain ⟨old, found, fs, rdonly⟩ := relocated_keeps other relocated
    rw [fs, rdonly]
    exact all old found
  · rcases List.mem_cons.mp rest with same | old
    · rw [same]
      exact all mount (visible_above visible).1
    · exact all other old

theorem move_all (property : Fs → Bool → Prop)
    (all : ∀ mount ∈ table.mounts, property mount.fs mount.rdonly)
    (moved : table.move source target = .ok after) :
    ∀ mount ∈ after.mounts, property mount.fs mount.rdonly := by
  obtain ⟨newer, mount, older, split, _, _, visible, _, rfl⟩ := move_ok_cases moved
  intro other member
  rcases List.mem_append.mp member with relocated | rest
  · obtain ⟨old, found, fs, rdonly⟩ := relocated_keeps other relocated
    rw [fs, rdonly]
    exact all old found
  · rcases List.mem_cons.mp rest with same | kept
    · rw [same]
      exact all mount (visible_above visible).1
    · apply all
      rw [split]
      rcases List.mem_append.mp kept with first | last
      · exact List.mem_append_left _ (List.mem_filter.mp first).1
      · exact List.mem_append_right _ (List.mem_cons_of_mem _ last)

/-! ### Mounting -/

variable [DecidableEq Fs]

theorem mount_ok_cases {mounted : Mounted Name Fs} (made : table.mount mounted = .ok after) :
    table.isDir mounted.point = true ∧ after = { table with mounts := mounted :: table.mounts } := by
  rw [Table.mount] at made
  split_ifs at made with there busy
  cases made
  exact ⟨there, rfl⟩

theorem mount_elsewhere {mounted : Mounted Name Fs} (made : table.mount mounted = .ok after)
    (elsewhere : ¬mounted.point <+: place) : after.visible place = table.visible place := by
  obtain ⟨_, rfl⟩ := mount_ok_cases made
  exact visible_past _ _ _ elsewhere

theorem mount_below {mounted : Mounted Name Fs} (made : table.mount mounted = .ok after)
    (below : mounted.point <+: place) : after.visible place = some mounted := by
  obtain ⟨_, rfl⟩ := mount_ok_cases made
  exact visible_first _ _ _ below

theorem mount_is_dir {mounted : Mounted Name Fs} (made : table.mount mounted = .ok after)
    (elsewhere : ¬mounted.point <+: place) (there : table.isDir place = true) :
    after.isDir place = true := by
  apply is_dir_kept (mount_elsewhere made elsewhere) _ there
  obtain ⟨_, rfl⟩ := mount_ok_cases made
  exact fun _ _ kept => kept

/-- Where the same is mounted already, it is what decides. -/
theorem mount_busy {mounted : Mounted Name Fs} (busy : table.mount mounted = .error .busy) :
    ∃ there, table.visible mounted.point = some there ∧ there.point = mounted.point ∧
      there.fs = mounted.fs ∧ there.root = mounted.root := by
  rw [Table.mount] at busy
  split_ifs at busy with to_dir same
  · obtain ⟨there, visible, point, fs, root⟩ := same
    exact ⟨there, visible, point, fs, root⟩
  · cases busy

/-! ### Making directories -/

/-- A directory made is there, nothing is gone, and nothing is mounted. -/
theorem make_dir_ok (made : table.makeDir place = .ok after) :
    after.mounts = table.mounts ∧ after.isDir place = true ∧
      ∀ fs dir, table.holds fs dir = true → after.holds fs dir = true := by
  rw [Table.makeDir] at made
  cases visible : table.visible place with
  | none =>
      rw [visible] at made
      cases made
  | some mount =>
      rw [visible] at made
      simp only at made
      split_ifs at made with there read_only
      · cases made
        refine ⟨rfl, ?_, fun _ _ kept => kept⟩
        rw [is_dir_of_visible visible]
        exact there
      · cases made
        refine ⟨rfl, ?_, ?_⟩
        · have same : Table.visible ⟨table.mounts, fun fs dir =>
              if fs = mount.fs ∧ dir = Table.shown mount place then true else table.dirs fs dir⟩
              place = some mount := visible
          rw [is_dir_of_visible same, Table.holds]
          simp
        · intro fs dir kept
          rw [Table.holds, Bool.or_eq_true] at kept ⊢
          apply kept.imp_right
          intro old
          dsimp only
          split_ifs
          · rfl
          · exact old

theorem make_dirs_ok {steps : List (Step Name)} (made : table.makeDirs place steps = .ok after) :
    after.mounts = table.mounts ∧ after.isDir (walk place steps) = true ∧
      ∀ fs dir, table.holds fs dir = true → after.holds fs dir = true := by
  induction steps generalizing table place with
  | nil => exact make_dir_ok made
  | cons step steps ih =>
      rw [Table.makeDirs] at made
      obtain ⟨between, first, rest⟩ := of_bind_ok made
      obtain ⟨mounts, _, kept⟩ := make_dir_ok first
      obtain ⟨mounts', to_dir, kept'⟩ := ih rest
      exact ⟨mounts'.trans mounts, to_dir, fun fs dir old => kept' fs dir (kept fs dir old)⟩

/-! ### What is seen -/

omit [DecidableEq Fs] in
theorem sees_of_visible {mount : Mounted Name Fs} (visible : table.visible place = some mount) :
    table.sees place = some (mount.fs, Table.shown mount place, mount.rdonly) := by
  rw [Table.sees, visible, Option.map_some]

theorem find_congr {α : Type} {p q : α → Bool} {values : List α}
    (same : ∀ value ∈ values, p value = q value) : values.find? p = values.find? q := by
  induction values with
  | nil => rfl
  | cons value rest ih =>
      obtain ⟨first, others⟩ := List.forall_mem_cons.mp same
      rw [List.find?_cons, List.find?_cons, first, ih others]

omit [DecidableEq Fs] in
/-- What decides below a place: something mounted below it since, or what decides about the place. -/
theorem visible_from {mount : Mounted Name Fs} (visible : table.visible place = some mount)
    (deep : List Name) : table.visible (place ++ deep) =
      (((table.under place).find? fun mount => mount.point.isPrefixOf (place ++ deep)).or
        (some mount)) := by
  rw [Table.visible, List.find?_eq_some_iff_append] at visible
  obtain ⟨first, newer, older, split, apart⟩ := visible
  have above : mount.point <+: place ++ deep :=
    (List.isPrefixOf_iff_prefix.mp first).trans (List.prefix_append _ _)
  have stop : ¬(!mount.point.isPrefixOf place) = true := by rw [first]; decide
  have taken : table.mounts.takeWhile (fun mount => !mount.point.isPrefixOf place) = newer := by
    rw [split, List.takeWhile_append_of_pos apart, List.takeWhile_cons, if_neg stop,
      List.append_nil]
  have found := visible_first mount older table.dirs above
  rw [Table.under, taken, List.find?_filter, Table.visible, split, List.find?_append]
  rw [Table.visible] at found
  rw [found]
  congr 1
  refine find_congr ?_
  intro other member
  have missed := apart other member
  cases covers : other.point.isPrefixOf (place ++ deep) with
  | false => simp
  | true =>
      rw [eq_comm, decide_eq_true_eq]
      refine ⟨?_, rfl⟩
      rw [List.isPrefixOf_iff_prefix] at covers ⊢
      rcases List.prefix_or_prefix_of_prefix covers (List.prefix_append place deep) with
        shorter | longer
      · rw [List.isPrefixOf_iff_prefix.mpr shorter] at missed
        cases missed
      · exact longer

omit [DecidableEq Fs] in
/-- A copy covers below the target what its original covers below the source. -/
theorem relocated_covers {mount : Mounted Name Fs} (below : source <+: mount.point)
    (deep : List Name) :
    (Table.relocate source target mount).point.isPrefixOf (target ++ deep) =
        mount.point.isPrefixOf (source ++ deep) ∧
      Table.shown (Table.relocate source target mount) (target ++ deep) =
        Table.shown mount (source ++ deep) := by
  obtain ⟨rest, whole⟩ := below
  have moved : (Table.relocate source target mount).point = target ++ rest := by
    rw [Table.relocate, ← whole, List.drop_left]
  constructor
  · rw [moved, ← whole, Bool.eq_iff_iff, List.isPrefixOf_iff_prefix, List.isPrefixOf_iff_prefix,
      List.prefix_append_right_inj, List.prefix_append_right_inj]
  · rw [Table.shown, Table.shown, moved, ← whole]
    simp only [Table.relocate, List.length_append, ← List.drop_drop, List.drop_left]

omit [DecidableEq Fs] in
/-- Below the target of a bind stands what stood below its source: either the source's own mount
shows it, and the bind does now, or one below the source, and its copy does. -/
theorem bind_below (bound : table.bind source target = .ok after) (deep : List Name) :
    ∃ before now, table.visible (source ++ deep) = some before ∧
      after.visible (target ++ deep) = some now ∧ now.fs = before.fs ∧ now.rdonly = before.rdonly ∧
      Table.shown now (target ++ deep) = Table.shown before (source ++ deep) ∧
      ((now.point = target ∧ table.visible source = some before) ∨
        (target <+: now.point ∧ now.point ≠ target ∧ source <+: before.point ∧
          before.point ≠ source)) := by
  obtain ⟨mount, visible, _, rfl⟩ := bind_ok_cases bound
  have whole := visible_from visible deep
  have covers : ∀ other ∈ table.under source,
      (Table.relocate source target other).point.isPrefixOf (target ++ deep) =
          other.point.isPrefixOf (source ++ deep) ∧
        Table.shown (Table.relocate source target other) (target ++ deep) =
          Table.shown other (source ++ deep) := by
    intro other member
    have below := (List.mem_filter.mp member).2
    exact relocated_covers (List.isPrefixOf_iff_prefix.mp below) deep
  have now : Table.visible ⟨(table.under source).map (Table.relocate source target) ++
        ⟨target, mount.fs, Table.shown mount source, mount.rdonly⟩ :: table.mounts, table.dirs⟩
        (target ++ deep) =
      (((table.under source).find? fun mount => mount.point.isPrefixOf (source ++ deep)).map
        (Table.relocate source target)).or
        (some ⟨target, mount.fs, Table.shown mount source, mount.rdonly⟩) := by
    have same : ((table.under source).map (Table.relocate source target)).find?
          (fun mount => mount.point.isPrefixOf (target ++ deep)) =
        ((table.under source).find? fun mount => mount.point.isPrefixOf (source ++ deep)).map
          (Table.relocate source target) := by
      rw [List.find?_map]
      congr 1
      exact find_congr fun other member => (covers other member).1
    have last := visible_first (Mounted.mk target mount.fs (Table.shown mount source) mount.rdonly)
      table.mounts table.dirs (List.prefix_append target deep)
    rw [Table.visible] at last ⊢
    rw [List.find?_append, same, last]
  cases found : (table.under source).find? fun mount =>
      mount.point.isPrefixOf (source ++ deep) with
  | none =>
      rw [found, Option.none_or] at whole
      rw [found, Option.map_none, Option.none_or] at now
      have short := (visible_above visible).2.length_le
      refine ⟨mount, _, whole, now, rfl, rfl, ?_, .inl ⟨rfl, visible⟩⟩
      rw [Table.shown, Table.shown, Table.shown, List.drop_left, List.append_assoc,
        List.drop_append_of_le_length short]
  | some other =>
      rw [found, Option.some_or] at whole
      rw [found, Option.map_some, Option.some_or] at now
      have member := List.mem_of_find?_eq_some found
      obtain ⟨newer, below⟩ := List.mem_filter.mp member
      have apart := List.mem_takeWhile_imp newer
      obtain ⟨beneath, elsewhere⟩ := relocated_below _
        (List.mem_map_of_mem (f := Table.relocate source target) member)
      refine ⟨other, _, whole, now, rfl, rfl, (covers other member).2, .inr ⟨beneath, elsewhere,
        List.isPrefixOf_iff_prefix.mp below, ?_⟩⟩
      intro same
      rw [same, List.isPrefixOf_iff_prefix.mpr List.prefix_rfl] at apart
      cases apart

omit [DecidableEq Fs] in
/-- A bind shows its source. -/
theorem sees_bind (bound : table.bind source target = .ok after) (deep : List Name) :
    after.sees (target ++ deep) = table.sees (source ++ deep) := by
  obtain ⟨before, now, was, is_, fs, rdonly, shown, _⟩ := bind_below bound deep
  rw [sees_of_visible was, sees_of_visible is_, fs, rdonly, shown]

omit [DecidableEq Fs] in
theorem remount_ok_cases (made : table.remount place = .ok after) :
    ∃ newer mount older, table.mounts = newer ++ mount :: older ∧ mount.point = place ∧
      (∀ other ∈ newer, ¬other.point <+: place) ∧
      after = { table with mounts := newer ++ { mount with rdonly := true } :: older } := by
  rw [Table.remount] at made
  cases visible : table.visible place with
  | none =>
      rw [visible] at made
      cases made
  | some mount =>
      rw [visible] at made
      simp only at made
      split_ifs at made with point
      cases made
      rw [Table.visible, List.find?_eq_some_iff_append] at visible
      obtain ⟨first, newer, older, split, apart⟩ := visible
      have stop : ¬(!mount.point.isPrefixOf place) = true := by rw [first]; decide
      have taken : table.mounts.takeWhile (fun mount => !mount.point.isPrefixOf place) = newer := by
        rw [split, List.takeWhile_append_of_pos apart, List.takeWhile_cons, if_neg stop,
          List.append_nil]
      have dropped : table.mounts.dropWhile (fun mount => !mount.point.isPrefixOf place) =
          mount :: older := by
        rw [split, List.dropWhile_append_of_pos apart, List.dropWhile_cons, if_neg stop]
      refine ⟨newer, mount, older, split, not_not.mp point, ?_, ?_⟩
      · intro other member above
        have missed := apart other member
        rw [List.isPrefixOf_iff_prefix.mpr above] at missed
        cases missed
      · rw [taken, dropped, List.tail_cons]

omit [DecidableEq Fs] in
/-- What is remounted is read-only where it is what decides, and nothing else changes. -/
theorem remount_visible (made : table.remount place = .ok after) (spot : List Name) :
    after.visible spot = (table.visible spot).map fun mount =>
      if mount.point = place then { mount with rdonly := true } else mount := by
  obtain ⟨newer, top, older, split, point, apart, rfl⟩ := remount_ok_cases made
  have before : table.visible spot = Table.visible ⟨newer ++ top :: older, table.dirs⟩ spot := by
    rw [← split]
  rw [before, visible_append, visible_append]
  cases found : Table.visible ⟨newer, table.dirs⟩ spot with
  | some other =>
      have ne : other.point ≠ place := by
        intro same
        exact apart other (visible_above found).1 (same ▸ List.prefix_rfl)
      rw [Option.some_or, Option.some_or, Option.map_some, if_neg ne]
  | none =>
      rw [Option.none_or, Option.none_or]
      by_cases above : top.point <+: spot
      · have first : Table.visible ⟨{ top with rdonly := true } :: older, table.dirs⟩ spot =
            some { top with rdonly := true } :=
          visible_first { top with rdonly := true } older table.dirs above
        rw [visible_first top older table.dirs above, first, Option.map_some, if_pos point]
      · have past : ¬({ top with rdonly := true } : Mounted Name Fs).point <+: spot := above
        rw [visible_past top older table.dirs above, visible_past _ older table.dirs past]
        cases rest : Table.visible ⟨older, table.dirs⟩ spot with
        | none => rfl
        | some other =>
            have ne : other.point ≠ place := by
              intro same
              apply above
              rw [point, ← same]
              exact (visible_above rest).2
            rw [Option.map_some, if_neg ne]

omit [DecidableEq Fs] in
/-- All that a pivot does. -/
theorem pivot_ok_cases {newRoot putOld : List Name} (made : table.pivot newRoot putOld = .ok after) :
    ∃ (mount root : Mounted Name Fs) (above : List (Mounted Name Fs)),
      table.visible newRoot = some mount ∧ mount.point = newRoot ∧ newRoot ≠ [] ∧
      above = table.mounts.takeWhile (fun mount => !mount.point.isEmpty) ∧
      after = { table with
        mounts :=
          ((above.filter fun mount => !newRoot.isPrefixOf mount.point).map
            (Table.relocate [] putOld)) ++ { root with point := putOld } ::
            (above.filter fun mount => newRoot.isPrefixOf mount.point).map
              (Table.relocate newRoot []) } := by
  rw [Table.pivot] at made
  split at made
  · rename_i mount root visible _
    split_ifs at made with where_ there
    cases made
    rw [not_or, not_not] at where_
    exact ⟨mount, root, _, visible, where_.1, where_.2, rfl, rfl⟩
  · cases made

omit [DecidableEq Fs] in
/-- Mounts at or below a mounted place, and they alone, show its places as if it were the root. -/
theorem sees_rerooted {newRoot : List Name} {mount : Mounted Name Fs}
    (visible : table.visible newRoot = some mount) (point : mount.point = newRoot)
    (below : newRoot ≠ []) (dirs : Fs → List Name → Bool) (spot : List Name) :
    Table.sees ⟨((table.mounts.takeWhile fun mount => !mount.point.isEmpty).filter
        fun mount => newRoot.isPrefixOf mount.point).map (Table.relocate newRoot []), dirs⟩ spot =
      table.sees (newRoot ++ spot) := by
  have whole := visible_from visible spot
  rw [Table.visible, List.find?_eq_some_iff_append] at visible
  obtain ⟨first, newer, older, split, apart⟩ := visible
  have near : ∀ other ∈ newer, ¬other.point <+: newRoot := by
    intro other member covers
    have missed := apart other member
    rw [List.isPrefixOf_iff_prefix.mpr covers] at missed
    cases missed
  have taken : table.mounts.takeWhile (fun mount => !mount.point.isEmpty) =
      newer ++ mount :: older.takeWhile fun mount => !mount.point.isEmpty := by
    have full : (!mount.point.isEmpty) = true := by
      rw [point, Bool.not_eq_true', List.isEmpty_eq_false_iff]
      exact below
    rw [split, List.takeWhile_append_of_pos, List.takeWhile_cons, if_pos full]
    intro other member
    rw [Bool.not_eq_true', List.isEmpty_eq_false_iff]
    intro none
    exact near other member (none ▸ List.nil_prefix)
  have under : table.under newRoot =
      newer.filter fun mount => newRoot.isPrefixOf mount.point := by
    have stop : ¬(!mount.point.isPrefixOf newRoot) = true := by rw [first]; decide
    rw [Table.under, split, List.takeWhile_append_of_pos apart, List.takeWhile_cons, if_neg stop,
      List.append_nil]
  have own : newRoot.isPrefixOf mount.point = true := by
    rw [point]
    exact List.isPrefixOf_iff_prefix.mpr List.prefix_rfl
  have covers : ∀ other ∈ newer.filter fun mount => newRoot.isPrefixOf mount.point,
      (Table.relocate newRoot [] other).point.isPrefixOf spot =
          other.point.isPrefixOf (newRoot ++ spot) ∧
        Table.shown (Table.relocate newRoot [] other) spot =
          Table.shown other (newRoot ++ spot) := by
    intro other member
    exact relocated_covers (List.isPrefixOf_iff_prefix.mp (List.mem_filter.mp member).2) spot
  have top : (Table.relocate newRoot [] mount).point.isPrefixOf spot =
        mount.point.isPrefixOf (newRoot ++ spot) ∧
      Table.shown (Table.relocate newRoot [] mount) spot = Table.shown mount (newRoot ++ spot) :=
    relocated_covers (List.isPrefixOf_iff_prefix.mp own) spot
  have reached : mount.point.isPrefixOf (newRoot ++ spot) = true := by
    rw [point]
    exact List.isPrefixOf_iff_prefix.mpr (List.prefix_append _ _)
  have now : Table.visible ⟨((newer ++ mount :: older.takeWhile fun mount =>
        !mount.point.isEmpty).filter fun mount => newRoot.isPrefixOf mount.point).map
          (Table.relocate newRoot []), dirs⟩ spot =
      (((newer.filter fun mount => newRoot.isPrefixOf mount.point).find?
        fun mount => mount.point.isPrefixOf (newRoot ++ spot)).or (some mount)).map
          (Table.relocate newRoot []) := by
    have same : (newer.filter fun mount => newRoot.isPrefixOf mount.point).find?
          ((fun mount => mount.point.isPrefixOf spot) ∘ Table.relocate newRoot []) =
        (newer.filter fun mount => newRoot.isPrefixOf mount.point).find?
          fun mount => mount.point.isPrefixOf (newRoot ++ spot) :=
      find_congr fun other member => (covers other member).1
    rw [Table.visible, List.filter_append, List.map_append, List.find?_append, List.find?_map,
      List.filter_cons, if_pos own, List.map_cons, List.find?_cons, top.1, reached, same]
    cases (newer.filter fun mount => newRoot.isPrefixOf mount.point).find?
      fun mount => mount.point.isPrefixOf (newRoot ++ spot) <;> rfl
  rw [taken, Table.sees, now, Table.sees, whole, under, Option.map_map]
  cases found : (newer.filter fun mount => newRoot.isPrefixOf mount.point).find?
      fun mount => mount.point.isPrefixOf (newRoot ++ spot) with
  | none =>
      rw [Option.none_or, Option.map_some, Option.map_some]
      exact congrArg (fun dir => some (mount.fs, dir, mount.rdonly)) top.2
  | some other =>
      rw [Option.some_or, Option.map_some, Option.map_some]
      have member := List.mem_of_find?_eq_some found
      exact congrArg (fun dir => some (other.fs, dir, other.rdonly)) (covers other member).2

omit [DecidableEq Fs] in
/-- Detaching the old root leaves the mounts of the new one. -/
theorem detach_pivoted {putOld : List Name} {old fresh : List (Mounted Name Fs)}
    {root : Mounted Name Fs} {dirs : Fs → List Name → Bool}
    (beneath : ∀ mount ∈ old, putOld <+: mount.point ∧ mount.point ≠ putOld)
    (gone : Table.detach ⟨old ++ { root with point := putOld } :: fresh, dirs⟩ putOld = .ok after) :
    after = ⟨fresh, dirs⟩ := by
  have apart : ∀ mount ∈ old, ¬mount.point <+: putOld := by
    intro mount member covers
    obtain ⟨under, ne⟩ := beneath mount member
    exact ne (covers.eq_of_length_le under.length_le)
  have passes : ∀ mount ∈ old, (!mount.point.isPrefixOf putOld) = true := by
    intro mount member
    rw [Bool.not_eq_true', ← Bool.not_eq_true, List.isPrefixOf_iff_prefix]
    exact apart mount member
  have visible : Table.visible ⟨old ++ { root with point := putOld } :: fresh, dirs⟩ putOld =
      some { root with point := putOld } := by
    rw [visible_elsewhere old _ dirs apart]
    exact visible_first { root with point := putOld } fresh dirs List.prefix_rfl
  have stop : ¬(!({ root with point := putOld } : Mounted Name Fs).point.isPrefixOf putOld) =
      true := by
    rw [List.isPrefixOf_iff_prefix.mpr List.prefix_rfl]
    decide
  have none : old.filter (fun mount => !putOld.isPrefixOf mount.point) = [] := by
    rw [List.filter_eq_nil_iff]
    intro mount member
    rw [List.isPrefixOf_iff_prefix.mpr (beneath mount member).1]
    decide
  rw [Table.detach, visible] at gone
  simp only [ne_eq, not_true_eq_false, if_false] at gone
  rw [List.takeWhile_append_of_pos passes, List.takeWhile_cons, if_neg stop,
    List.dropWhile_append_of_pos passes, List.dropWhile_cons, if_neg stop, List.append_nil, none,
    List.tail_cons, List.nil_append] at gone
  cases gone
  rfl

omit [DecidableEq Fs] in
/-- Once the old root is detached, what the new root shows is all that is seen. -/
theorem pivot_detach {newRoot putOld : List Name} {between : Table Name Fs}
    (made : table.pivot newRoot putOld = .ok between) (gone : between.detach putOld = .ok after)
    (spot : List Name) : after.sees spot = table.sees (newRoot ++ spot) := by
  obtain ⟨mount, root, above, visible, point, below, taken, rfl⟩ := pivot_ok_cases made
  have beneath : ∀ mount ∈ (above.filter fun mount => !newRoot.isPrefixOf mount.point).map
      (Table.relocate [] putOld), putOld <+: mount.point ∧ mount.point ≠ putOld := by
    intro moved member
    obtain ⟨other, found, rfl⟩ := List.mem_map.mp member
    refine ⟨List.prefix_append _ _, ?_⟩
    intro same
    have none : other.point.drop 0 = [] := List.append_right_eq_self.mp same
    have full := (List.mem_filter.mp found).1
    rw [taken] at full
    have nonempty := List.mem_takeWhile_imp full
    rw [List.drop_zero] at none
    rw [none] at nonempty
    cases nonempty
  rw [detach_pivoted beneath gone, taken]
  exact sees_rerooted visible point below _ spot

end Operations

end HorizonOs.Lib.MountTable
