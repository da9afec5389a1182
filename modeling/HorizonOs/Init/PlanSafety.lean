import HorizonOs.Init.Assembly

/-!
# The plan is safe

Each property of the assembled root holds along the run of the plan, whatever the recipe: of
every step in the table it is taken in, or of every table that is reached.
-/

namespace HorizonOs.Init

open HorizonOs.Lib.MountTable HorizonOs.Lib.Runs

set_option autoImplicit false

/-! ## The initramfs -/

/-- The kernel's filesystems, by the directory of the root they are mounted on. -/
def kernelMounts : List (String × String) :=
  [("dev", "devtmpfs"), ("proc", "proc"), ("sys", "sysfs")]

/-- A place outside of the kernel's filesystems. -/
def Outside (place : List String) : Prop := ∀ kernel ∈ kernelMounts, ¬[kernel.1] <+: place

instance (place : List String) : Decidable (Outside place) :=
  inferInstanceAs (Decidable (∀ kernel ∈ kernelMounts, ¬[kernel.1] <+: place))

/-- A filesystem, where it is the base's device, with no access to write. -/
def Spared (base : Source) (fs : Filesystem) (rdonly : Bool) : Prop :=
  fs = .device base.dev.place → rdonly = true

/-- Nothing writable shows the device of the base. -/
def BaseReadOnly (base : Source) (table : MountTable) : Prop :=
  ∀ mount ∈ table.mounts, Spared base mount.fs mount.rdonly

/-- What init starts from: the directories of the kernel's filesystems, the base not mounted
writable, and nothing yet where the writable layer goes. -/
structure Initramfs (r : Recipe) (table : MountTable) : Prop where
  kernel : ∀ kernel ∈ kernelMounts, table.isDir [kernel.1] = true
  base : BaseReadOnly r.base table
  fresh : ∀ mount ∈ table.visible (Layout.new r.scratch).«over».place,
    mount.point ≠ (Layout.new r.scratch).«over».place

theorem outside_child {place : List String} (outside : Outside place) {kernel : String × String}
    (member : kernel ∈ kernelMounts) {child : String} (other : kernel.1 ≠ child)
    (rest : List String) : ¬[kernel.1] <+: place ++ child :: rest := by
  intro below
  cases place with
  | nil =>
      rw [List.nil_append, List.cons_prefix_cons] at below
      exact other below.1
  | cons first names =>
      apply outside kernel member
      rw [List.cons_append, List.cons_prefix_cons] at below
      rw [List.cons_prefix_cons]
      exact ⟨below.1, List.nil_prefix⟩

theorem kernel_ne : ∀ kernel ∈ kernelMounts,
    kernel.1 ≠ "lower" ∧ kernel.1 ≠ "over" ∧ kernel.1 ≠ "root" := by
  decide

section Places

variable (r : Recipe)

theorem lower_place : (Layout.new r.scratch).lower.place = r.scratch.place ++ ["lower"] :=
  Path.place_child _ _

theorem over_place : (Layout.new r.scratch).«over».place = r.scratch.place ++ ["over"] :=
  Path.place_child _ _

theorem root_place : (Layout.new r.scratch).root.place = r.scratch.place ++ ["root"] :=
  Path.place_child _ _

theorem upper_place :
    (Layout.new r.scratch).upper.place = r.scratch.place ++ ["over", "upper"] := by
  have steps : (Layout.new r.scratch).upper.place =
      (Layout.new r.scratch).«over».place ++ ["upper"] := Path.place_child _ _
  rw [steps, over_place, List.append_assoc]
  rfl

theorem work_place : (Layout.new r.scratch).work.place = r.scratch.place ++ ["over", "work"] := by
  have steps : (Layout.new r.scratch).work.place =
      (Layout.new r.scratch).«over».place ++ ["work"] := Path.place_child _ _
  rw [steps, over_place, List.append_assoc]
  rfl

end Places

/-- Siblings, and what is below one of them, are apart. -/
theorem sibling_apart (place : List String) {first second : String} (other : first ≠ second)
    (rest : List String) : ¬place ++ [first] <+: place ++ second :: rest := by
  rw [List.prefix_append_right_inj, List.cons_prefix_cons]
  exact fun same => other same.1

/-! ## Targets -/

section Run

variable {r : Recipe} {start : MountTable}

/-- The early mounts hide none of each other's targets. -/
theorem early_targets (initramfs : Initramfs r start) :
    Throughout perform TargetThere start earlyMounts := by
  have dev := initramfs.kernel ("dev", "devtmpfs") (by decide)
  have proc := initramfs.kernel ("proc", "proc") (by decide)
  have sys := initramfs.kernel ("sys", "sysfs") (by decide)
  refine ⟨?_, fun second mounted => ⟨?_, fun third mounted' => ⟨?_, fun _ _ => trivial⟩⟩⟩
  · rintro _ ⟨⟩
    exact dev
  · rintro _ ⟨⟩
    exact mount_step_is_dir mounted (by decide) proc
  · rintro _ ⟨⟩
    exact mount_step_is_dir mounted' (by decide) (mount_step_is_dir mounted (by decide) sys)

theorem plan_targets (initramfs : Initramfs r start) :
    Throughout perform TargetThere start (plan r) := by
  rw [plan_split, throughout_append]
  refine ⟨early_targets initramfs, fun between _ => ?_⟩
  exact prepares_targets (prepares_later r) between nofun

/-! ## The base -/

/-- A mount of the base's device is read-only. -/
def SparesBase (base : Source) : Step → Prop
  | .mount source _ =>
      source.dev.place = base.dev.place → source.flags.rdonly = true ∨ isPseudo source.fstype = true
  | _ => True

theorem perform_base {base : Source} {table after : MountTable} {step : Step}
    (spares : SparesBase base step) (safe : BaseReadOnly base table)
    (done : perform table step = .ok after) : BaseReadOnly base after := by
  cases step with
  | mkdir path =>
      rw [BaseReadOnly, (make_dirs_ok done).1]
      exact safe
  | mount source target =>
      rcases do_mount_cases done with made | ⟨_, same, _⟩
      · obtain ⟨_, rfl⟩ := mount_ok_cases made
        intro mount member
        rcases List.mem_cons.mp member with new | old
        · intro device
          rw [new] at device ⊢
          simp only [mountedOf, filesystemOf] at device ⊢
          split_ifs at device with memory pseudo
          rcases spares (Filesystem.device.inj device) with rdonly | kernel
          · exact rdonly
          · exact absurd kernel pseudo
        · exact safe mount old
      · rw [same]
        exact safe
  | overlay lower upper work target =>
      obtain ⟨dirs, made⟩ := do_overlay_ok done
      obtain ⟨_, rfl⟩ := mount_ok_cases made
      intro mount member
      rcases List.mem_cons.mp member with new | old
      · rw [new]
        exact nofun
      · exact safe mount old
  | bind origin target =>
      exact bind_all (Spared base) safe done
  | move origin target =>
      exact move_all (Spared base) safe done
  | switchRoot new_root init args =>
      rw [perform, switchRoot] at done
      split_ifs at done
      cases done
      exact safe

theorem carries_spare (base : Source) (root : Path) (carry : List Carry) :
    ∀ step ∈ carry.flatMap (carrySteps root), SparesBase base step := by
  intro step member
  obtain ⟨c, _, found⟩ := List.mem_flatMap.mp member
  simp only [carrySteps, List.mem_cons, List.not_mem_nil, or_false] at found
  rcases found with rfl | rfl
  · trivial
  · trivial

theorem plan_spares (r : Recipe)
    (apart : ∀ home, r.mode = .home home → home.dev.place ≠ r.base.dev.place) :
    ∀ step ∈ plan r, SparesBase r.base step := by
  have layer : SparesBase r.base (.mount r.overSource (Layout.new r.scratch).«over») := by
    intro device
    rw [Recipe.overSource] at device ⊢
    cases mode : r.mode with
    | home home =>
        rw [mode] at device
        exact absurd device (apart home mode)
    | ghost => exact .inr (by decide)
  have early : ∀ step ∈ earlyMounts, SparesBase r.base step := by
    intro step member
    simp only [earlyMounts, List.mem_cons, List.not_mem_nil, or_false] at member
    rcases member with rfl | rfl | rfl
    all_goals exact fun _ => .inr (by decide)
  intro step member
  simp only [plan, List.mem_append, baseSteps, layerSteps, rootSteps, kernelMoves, moveSteps,
    List.flatMap_cons, List.flatMap_nil, List.mem_cons, List.not_mem_nil, or_false] at member
  rcases member with (((((first | base) | layer') | root) | carried) | moved) | last
  · exact early step first
  · rcases base with rfl | rfl
    · trivial
    · exact fun _ => .inl rfl
  · rcases layer' with rfl | rfl | rfl | rfl
    · trivial
    · exact layer
    · trivial
    · trivial
  · rcases root with rfl | rfl <;> trivial
  · exact carries_spare r.base _ r.carry step carried
  · rcases moved with (rfl | rfl) | (rfl | rfl) | rfl | rfl <;> trivial
  · rw [last]
    trivial

theorem plan_base (initramfs : Initramfs r start)
    (apart : ∀ home, r.mode = .home home → home.dev.place ≠ r.base.dev.place)
    {done rest : List Step} {table : MountTable} (split : plan r = done ++ rest)
    (ended : execute start done = .ok table) : BaseReadOnly r.base table := by
  apply attempt_invariant (BaseReadOnly r.base) _ initramfs.base ended
  intro step member state next safe taken
  apply perform_base _ safe taken
  apply plan_spares r apart
  rw [split]
  exact List.mem_append_left _ member

/-! ## The layer -/

/-- The filesystems that a source can stand for. -/
def Source.backs (source : Source) : Filesystem → Bool
  | .memory _ => source.fstype = "tmpfs"
  | .kernel fstype => source.fstype = fstype
  | .device dev => source.dev.place = dev
  | .initramfs => false
  | .overlay _ => false

theorem filesystem_of_backs (table : MountTable) (source : Source) :
    source.backs (filesystemOf table source) = true := by
  rw [filesystemOf]
  split_ifs with memory pseudo
  · exact decide_eq_true memory
  · exact decide_eq_true rfl
  · exact decide_eq_true rfl

/-- The directories an overlay writes to are on the layer that the recipe asks for. -/
def OnLayer (r : Recipe) (rdonly : Bool) (table : MountTable) : Step → Prop
  | .overlay _ upper work _ =>
      table.isDir upper.place = true ∧ table.isDir work.place = true ∧
        ∃ layer, table.visible upper.place = some layer ∧ table.visible work.place = some layer ∧
          layer.point = (Layout.new r.scratch).«over».place ∧ layer.rdonly = rdonly ∧
          r.overSource.backs layer.fs = true
  | _ => True

def Step.isOverlay : Step → Bool
  | .overlay _ _ _ _ => true
  | _ => false

theorem on_layer_other (r : Recipe) (rdonly : Bool) {step : Step}
    (other : step.isOverlay = false) (table : MountTable) : OnLayer r rdonly table step := by
  cases step with
  | overlay lower upper work target => cases other
  | mkdir | mount | bind | move | switchRoot => trivial

/-- What comes before the layer, and what comes behind the overlay. -/
def beforeLayer (r : Recipe) : List Step :=
  earlyMounts ++ baseSteps r (.new r.scratch) ++ [.mkdir (Layout.new r.scratch).«over»]

def behindRoot (r : Recipe) : List Step :=
  r.carry.flatMap (carrySteps (Layout.new r.scratch).root) ++
    (kernelMoves (Layout.new r.scratch).root ++
      [.switchRoot (Layout.new r.scratch).root r.init r.initArgs])

theorem plan_around_layer (r : Recipe) :
    plan r = beforeLayer r ++ .mount r.overSource (Layout.new r.scratch).«over» ::
      .mkdir (Layout.new r.scratch).upper :: .mkdir (Layout.new r.scratch).work ::
        (rootSteps (.new r.scratch) ++ behindRoot r) := by
  simp only [plan, beforeLayer, behindRoot, layerSteps, List.append_assoc, List.cons_append,
    List.nil_append]

theorem before_layer_touches {place : List String}
    (early : ∀ kernel ∈ kernelMounts, ¬[kernel.1] <+: place)
    (lower : ¬(Layout.new r.scratch).lower.place <+: place) :
    ∀ step ∈ beforeLayer r, ∀ touched ∈ step.touches, ¬touched <+: place := by
  have dev := early ("dev", "devtmpfs") (by decide)
  have proc := early ("proc", "proc") (by decide)
  have sys := early ("sys", "sysfs") (by decide)
  intro step member touched touches
  simp only [beforeLayer, earlyMounts, baseSteps, List.cons_append, List.nil_append,
    List.mem_cons, List.not_mem_nil, or_false] at member
  rcases member with rfl | rfl | rfl | rfl | rfl | rfl
  all_goals simp only [Step.touches, List.mem_cons, List.not_mem_nil, or_false] at touches
  · rw [touches]
    exact dev
  · rw [touches]
    exact proc
  · rw [touches]
    exact sys
  · rw [touches]
    exact lower

/-- What the layer's mount makes visible below it. -/
theorem layer_mounted (initramfs : Initramfs r start) (outside : Outside r.scratch.place)
    {between after : MountTable} (before : execute start (beforeLayer r) = .ok between)
    (mounted : perform between (.mount r.overSource (Layout.new r.scratch).«over») = .ok after) :
    ∃ layer : Mounted String Filesystem, layer.point = (Layout.new r.scratch).«over».place ∧
      layer.rdonly = r.overSource.flags.rdonly ∧ r.overSource.backs layer.fs = true ∧
      ∀ place, (Layout.new r.scratch).«over».place <+: place → after.visible place = some layer := by
  have same : between.visible (Layout.new r.scratch).«over».place =
      start.visible (Layout.new r.scratch).«over».place := by
    apply execute_elsewhere before
    apply before_layer_touches
    · intro kernel member
      rw [over_place]
      exact outside_child outside member (kernel_ne kernel member).2.1 []
    · rw [lower_place, over_place]
      exact sibling_apart _ (by decide) []
  rcases do_mount_cases mounted with made | ⟨_, _, busy⟩
  · refine ⟨mountedOf between r.overSource (Layout.new r.scratch).«over», rfl, rfl, ?_, ?_⟩
    · exact filesystem_of_backs between r.overSource
    · exact fun place below => mount_below made below
  · obtain ⟨there, visible, point, _⟩ := mount_busy busy
    exact absurd point (initramfs.fresh there (same ▸ visible))

theorem plan_layer (initramfs : Initramfs r start) (outside : Outside r.scratch.place) :
    Throughout perform (OnLayer r r.overSource.flags.rdonly) start (plan r) := by
  have others : ∀ steps : List Step, (∀ step ∈ steps, step.isOverlay = false) → ∀ table,
      Throughout perform (OnLayer r r.overSource.flags.rdonly) table steps := by
    intro steps none table
    apply throughout_of_all
    exact fun step member table => on_layer_other r _ (none step member) table
  rw [plan_around_layer, throughout_append]
  refine ⟨others _ ?_ start, fun between before => ?_⟩
  · intro step member
    simp only [beforeLayer, earlyMounts, baseSteps, List.cons_append, List.nil_append,
      List.mem_cons, List.not_mem_nil, or_false] at member
    rcases member with rfl | rfl | rfl | rfl | rfl | rfl <;> rfl
  refine ⟨trivial, fun layered mounted => ⟨trivial, fun one made => ⟨trivial, fun two made' =>
    ⟨trivial, fun three made'' => ⟨?_, fun four _ => others (behindRoot r) ?_ four⟩⟩⟩⟩⟩
  · obtain ⟨layer, point, rdonly, backs, below⟩ := layer_mounted initramfs outside before mounted
    have upper : (Layout.new r.scratch).«over».place <+: (Layout.new r.scratch).upper.place := by
      rw [over_place, upper_place]
      exact (List.prefix_append_right_inj _).mpr (List.prefix_append ["over"] ["upper"])
    have work : (Layout.new r.scratch).«over».place <+: (Layout.new r.scratch).work.place := by
      rw [over_place, work_place]
      exact (List.prefix_append_right_inj _).mpr (List.prefix_append ["over"] ["work"])
    have seen : ∀ place, (Layout.new r.scratch).«over».place <+: place →
        three.visible place = some layer := by
      intro place under
      rw [(mkdir_keeps made'').1, (mkdir_keeps made').1, (mkdir_keeps made).1, below place under]
    refine ⟨?_, ?_, layer, seen _ upper, seen _ work, point, rdonly, backs⟩
    · exact (mkdir_keeps made'').2 ((mkdir_keeps made').2 (mkdir_makes made))
    · exact (mkdir_keeps made'').2 (mkdir_makes made')
  · intro step member
    rcases List.mem_append.mp member with carried | rest
    · obtain ⟨c, _, found⟩ := List.mem_flatMap.mp carried
      simp only [carrySteps, List.mem_cons, List.not_mem_nil, or_false] at found
      rcases found with rfl | rfl <;> rfl
    · simp only [kernelMoves, moveSteps, List.flatMap_cons, List.flatMap_nil, List.cons_append,
        List.nil_append, List.mem_cons, List.not_mem_nil, or_false] at rest
      rcases rest with rfl | rfl | rfl | rfl | rfl | rfl | rfl <;> rfl

/-! ## What is carried -/

def Rooted (table : MountTable) (place : List String) : Prop :=
  ∃ mount, table.visible place = some mount ∧ mount.point = place

/-- A carried path is bound on something of the new root, not on what lies below it hidden. -/
def InRoot (root : Path) (table : MountTable) : Step → Prop
  | .bind _ target => ∃ mount, table.visible target.place = some mount ∧ root.place <+: mount.point
  | _ => True

theorem bind_rooted {table after : MountTable} {root origin target : List String}
    (rooted : Rooted table root) (below : root <+: target)
    (bound : table.bind origin target = .ok after) : Rooted after root := by
  by_cases same : target = root
  · obtain ⟨mount, _, visible⟩ := bind_at bound
    rw [← same]
    exact ⟨_, visible, rfl⟩
  · have elsewhere : ¬target <+: root :=
      fun above => same (above.eq_of_length_le below.length_le)
    obtain ⟨mount, visible, point⟩ := rooted
    exact ⟨mount, (bind_elsewhere bound elsewhere).trans visible, point⟩

theorem carries_in_root {root : Path} {carry : List Carry}
    (down : ∀ c ∈ carry, .up ∉ c.target.steps) {table : MountTable}
    (rooted : Rooted table root.place) :
    Throughout perform (InRoot root) table (carry.flatMap (carrySteps root)) ∧
      ∀ after, execute table (carry.flatMap (carrySteps root)) = .ok after →
        Rooted after root.place := by
  induction carry generalizing table with
  | nil =>
      refine ⟨trivial, fun after done => ?_⟩
      cases done
      exact rooted
  | cons c carry ih =>
      obtain ⟨first, others⟩ := List.forall_mem_cons.mp down
      have below := under_below root c.target first
      have made_rooted : ∀ made, perform table (.mkdir (under root c.target)) = .ok made →
          Rooted made root.place := by
        intro made done
        obtain ⟨mount, visible, point⟩ := rooted
        exact ⟨mount, (mkdir_keeps done).1.trans visible, point⟩
      have bound_rooted : ∀ made bound, perform table (.mkdir (under root c.target)) = .ok made →
          perform made (.bind c.origin (under root c.target)) = .ok bound →
            Rooted bound root.place :=
        fun made bound done done' => bind_rooted (made_rooted made done) below done'
      constructor
      · refine ⟨trivial, fun made done => ⟨?_, fun bound done' => ?_⟩⟩
        · obtain ⟨mount, visible, point⟩ := made_rooted made done
          exact visible_below visible point below
        · exact (ih others (bound_rooted made bound done done')).1
      · intro after done
        obtain ⟨made, done, rest⟩ := of_bind_ok done
        obtain ⟨bound, done', later⟩ := of_bind_ok rest
        exact (ih others (bound_rooted made bound done done')).2 after later

/-! ## The kernel's filesystems -/

/-- A filesystem is mounted whole at a place, and nothing over it. -/
def Shows (table : MountTable) (place : List String) (fs : Filesystem) : Prop :=
  ∃ mount, table.visible place = some mount ∧ mount.point = place ∧ mount.fs = fs ∧ mount.root = []

/-- What ends the plan succeeds. -/
def HandsOver (table : MountTable) : Step → Prop
  | .move origin target => ∃ after, perform table (.move origin target) = .ok after
  | .switchRoot new_root init args =>
      ∃ after, perform table (.switchRoot new_root init args) = .ok after
  | _ => True

theorem shows_of_visible {table after : MountTable} {place : List String} {fs : Filesystem}
    (same : after.visible place = table.visible place) (shows : Shows table place fs) :
    Shows after place fs := by
  obtain ⟨mount, visible, rest⟩ := shows
  exact ⟨mount, same.trans visible, rest⟩

theorem mount_step_shows {table after : MountTable} {source : Source} {target : Path}
    (kernel : isPseudo source.fstype = true) (kept : source.fstype ≠ "tmpfs")
    (done : perform table (.mount source target) = .ok after) :
    Shows after target.place (.kernel source.fstype) := by
  have fs : filesystemOf table source = .kernel source.fstype := by
    rw [filesystemOf, if_neg kept, if_pos kernel]
  rcases do_mount_cases done with made | ⟨_, same, busy⟩
  · exact ⟨_, mount_below made List.prefix_rfl, rfl, fs, rfl⟩
  · obtain ⟨there, visible, point, same_fs, whole⟩ := mount_busy busy
    rw [same]
    exact ⟨there, visible, point, same_fs.trans fs, whole⟩

theorem early_shows {after : MountTable} (done : execute start earlyMounts = .ok after) :
    ∀ kernel ∈ kernelMounts, Shows after [kernel.1] (.kernel kernel.2) := by
  obtain ⟨one, dev, rest⟩ := of_bind_ok done
  obtain ⟨two, proc, rest'⟩ := of_bind_ok rest
  obtain ⟨three, sys, last⟩ := of_bind_ok rest'
  cases last
  have dev_shown := mount_step_shows (by decide) (by decide) dev
  have proc_shown := mount_step_shows (by decide) (by decide) proc
  have sys_shown := mount_step_shows (by decide) (by decide) sys
  have dev_kept := shows_of_visible (perform_elsewhere proc (by decide)) dev_shown
  intro kernel member
  simp only [kernelMounts, List.mem_cons, List.not_mem_nil, or_false] at member
  rcases member with rfl | rfl | rfl
  · exact shows_of_visible (perform_elsewhere sys (by decide)) dev_kept
  · exact shows_of_visible (perform_elsewhere sys (by decide)) proc_shown
  · exact sys_shown

/-- One filesystem moved into the new root. -/
theorem move_steps_land {table made : MountTable} {root : Path} {name : String} {fs : Filesystem}
    (shows : Shows table [name] fs) (outside : ¬[name] <+: root.place ++ [name])
    (done : perform table (.mkdir (root.child name)) = .ok made) :
    ∃ after, perform made (.move (.ofNames true [name]) (root.child name)) = .ok after ∧
      Shows after (root.place ++ [name]) fs := by
  obtain ⟨mount, visible, point, mount_fs, whole⟩ := shows
  have to_dir := mkdir_makes done
  have still : made.visible [name] = some mount := (mkdir_keeps done).1.trans visible
  rw [Path.place_child] at to_dir
  obtain ⟨after, moved⟩ := move_ends still point to_dir outside
  have taken : perform made (.move (.ofNames true [name]) (root.child name)) = .ok after := by
    rw [perform, Path.place_of_names, Path.place_child]
    exact moved
  obtain ⟨other, other_visible, _, landed⟩ := move_at moved
  have same : mount = other := Option.some.inj (still.symm.trans other_visible)
  refine ⟨after, taken, _, landed, rfl, ?_, ?_⟩
  · rw [← same]
    exact mount_fs
  · rw [← same]
    exact whole

theorem move_steps_touch {root : Path} {name : String} {place : List String}
    (origin : ¬[name] <+: place) (target : ¬root.place ++ [name] <+: place) :
    ∀ step ∈ moveSteps root name, ∀ touched ∈ step.touches, ¬touched <+: place := by
  intro step member touched touches
  simp only [moveSteps, List.mem_cons, List.not_mem_nil, or_false] at member
  rcases member with rfl | rfl
  · exact absurd touches List.not_mem_nil
  · simp only [Step.touches, List.mem_cons, List.not_mem_nil, or_false, Path.place_of_names,
      Path.place_child] at touches
    rcases touches with rfl | rfl
    · exact origin
    · exact target

theorem moves_land (r : Recipe) (outside : Outside r.scratch.place)
    (kernels : List (String × String)) (known : ∀ kernel ∈ kernels, kernel ∈ kernelMounts)
    (apart : kernels.Pairwise fun first second => first.1 ≠ second.1) {table : MountTable}
    (shows : ∀ kernel ∈ kernels, Shows table [kernel.1] (.kernel kernel.2)) :
    let root := (Layout.new r.scratch).root
    let moves := kernels.flatMap fun kernel => moveSteps root kernel.1
    Throughout perform HandsOver table moves ∧ ∀ after, execute table moves = .ok after →
      ∀ kernel ∈ kernels, Shows after (root.place ++ [kernel.1]) (.kernel kernel.2) := by
  intro root moves
  have below : ∀ kernel ∈ kernelMounts, ∀ name, ¬[kernel.1] <+: root.place ++ [name] := by
    intro kernel member name
    rw [root_place, List.append_assoc]
    exact outside_child outside member (kernel_ne kernel member).2.2 [name]
  have siblings : ∀ first second : String, first ≠ second →
      ¬root.place ++ [first] <+: root.place ++ [second] :=
    fun first second other => sibling_apart root.place other []
  have short : ∀ first second : String, ¬root.place ++ [first] <+: [second] := by
    intro first second above
    have length := above.length_le
    rw [root_place] at length
    simp only [List.length_append, List.length_cons, List.length_nil] at length
    omega
  induction kernels generalizing table with
  | nil => exact ⟨trivial, fun _ _ => nofun⟩
  | cons kernel kernels ih =>
      obtain ⟨here, known'⟩ := List.forall_mem_cons.mp known
      obtain ⟨first, others⟩ := List.forall_mem_cons.mp shows
      obtain ⟨differs, apart'⟩ := List.pairwise_cons.mp apart
      -- What the others show is not touched by the first move.
      have later : ∀ next, execute table (moveSteps root kernel.1) = .ok next →
          ∀ other ∈ kernels, Shows next [other.1] (.kernel other.2) := by
        intro next done other member
        apply shows_of_visible _ (others other member)
        apply execute_elsewhere done
        apply move_steps_touch
        · rw [List.cons_prefix_cons]
          exact fun same => differs other member same.1
        · exact short _ _
      have whole : moves =
          moveSteps root kernel.1 ++ kernels.flatMap (fun kernel => moveSteps root kernel.1) := rfl
      constructor
      · rw [whole, throughout_append]
        refine ⟨⟨trivial, fun made done => ⟨?_, fun _ _ => trivial⟩⟩, fun next done => ?_⟩
        · obtain ⟨after, taken, _⟩ := move_steps_land first (below kernel here kernel.1) done
          exact ⟨after, taken⟩
        · exact (ih known' apart' (later next done)).1
      · intro after done
        obtain ⟨next, moved, rest⟩ := attempt_split done
        intro shown_kernel member
        rcases List.mem_cons.mp member with same | among
        · rw [same]
          obtain ⟨made, making, moving⟩ := of_bind_ok moved
          obtain ⟨landed, taken, shown⟩ := move_steps_land first (below kernel here kernel.1) making
          rw [attempt, taken] at moving
          cases moving
          apply shows_of_visible _ shown
          apply execute_elsewhere rest
          intro step member
          obtain ⟨other, found, among⟩ := List.mem_flatMap.mp member
          exact move_steps_touch (below other (known' other found) kernel.1)
            (siblings _ _ (differs other found).symm) step among
        · exact (ih known' apart' (later next moved)).2 after rest shown_kernel among

/-! ## The whole run -/

/-- Everything until the root is assembled. -/
def frontSteps (r : Recipe) : List Step :=
  earlyMounts ++ (baseSteps r (.new r.scratch) ++ (layerSteps r (.new r.scratch) ++
    rootSteps (.new r.scratch)))

theorem plan_front (r : Recipe) : plan r = frontSteps r ++ behindRoot r := by
  simp only [plan, frontSteps, behindRoot, List.append_assoc]

theorem front_rooted {between : MountTable} (done : execute start (frontSteps r) = .ok between) :
    Rooted between (Layout.new r.scratch).root.place := by
  have last : frontSteps r = (earlyMounts ++ (baseSteps r (.new r.scratch) ++
      (layerSteps r (.new r.scratch) ++ [.mkdir (Layout.new r.scratch).root]))) ++
        [.overlay (Layout.new r.scratch).lower (Layout.new r.scratch).upper
          (Layout.new r.scratch).work (Layout.new r.scratch).root] := by
    simp only [frontSteps, rootSteps, List.append_assoc, List.cons_append, List.nil_append]
  rw [last] at done
  obtain ⟨before, _, stacked⟩ := attempt_split done
  obtain ⟨after, stacking, ended⟩ := of_bind_ok stacked
  cases ended
  obtain ⟨dirs, mounted⟩ := do_overlay_ok stacking
  exact ⟨_, mount_below mounted List.prefix_rfl, rfl⟩

theorem front_shows {between : MountTable}
    (done : execute start (frontSteps r) = .ok between) :
    ∀ kernel ∈ kernelMounts, Shows between [kernel.1] (.kernel kernel.2) := by
  intro kernel member
  obtain ⟨early, mounted, rest⟩ := attempt_split done
  apply shows_of_visible _ (early_shows mounted kernel member)
  apply execute_elsewhere rest
  -- A place of the layout is no shorter than the kernel's directory, and named otherwise.
  have apart : ∀ child, kernel.1 ≠ child → ¬r.scratch.place ++ [child] <+: [kernel.1] := by
    intro child other above
    cases scratch : r.scratch.place with
    | nil =>
        rw [scratch, List.nil_append, List.cons_prefix_cons] at above
        exact other above.1.symm
    | cons name names =>
        have length := above.length_le
        rw [scratch] at length
        simp only [List.length_append, List.length_cons, List.length_nil] at length
        omega
  obtain ⟨lower, layer, root⟩ := kernel_ne kernel member
  intro step member touched touches
  simp only [baseSteps, layerSteps, rootSteps, List.cons_append, List.nil_append, List.mem_cons,
    List.not_mem_nil, or_false] at member
  rcases member with rfl | rfl | rfl | rfl | rfl | rfl | rfl | rfl
  all_goals simp only [Step.touches, List.mem_cons, List.not_mem_nil, or_false] at touches
  · rw [touches, lower_place]
    exact apart _ lower
  · rw [touches, over_place]
    exact apart _ layer
  · rw [touches, root_place]
    exact apart _ root

/-- No kernel filesystem is at the new root or above it, nor the new root above one. -/
theorem root_apart (outside : Outside r.scratch.place) :
    ∀ kernel ∈ kernelMounts, ¬[kernel.1] <+: (Layout.new r.scratch).root.place ∧
      ¬(Layout.new r.scratch).root.place <+: [kernel.1] := by
  intro kernel member
  have other := (kernel_ne kernel member).2.2
  have below : ¬[kernel.1] <+: (Layout.new r.scratch).root.place := by
    rw [root_place]
    exact outside_child outside member other []
  refine ⟨below, fun above => below ?_⟩
  have longer : [kernel.1].length ≤ (Layout.new r.scratch).root.place.length := by
    rw [root_place, List.length_append]
    exact Nat.le_add_left _ _
  rw [above.eq_of_length_le longer]

theorem carries_show (outside : Outside r.scratch.place)
    (down : ∀ c ∈ r.carry, .up ∉ c.target.steps) {between after : MountTable}
    (shows : ∀ kernel ∈ kernelMounts, Shows between [kernel.1] (.kernel kernel.2))
    (done : execute between (r.carry.flatMap (carrySteps (Layout.new r.scratch).root)) =
      .ok after) :
    ∀ kernel ∈ kernelMounts, Shows after [kernel.1] (.kernel kernel.2) := by
  intro kernel member
  apply shows_of_visible _ (shows kernel member)
  apply execute_elsewhere done
  intro step among touched touches above
  obtain ⟨c, carried, found⟩ := List.mem_flatMap.mp among
  simp only [carrySteps, List.mem_cons, List.not_mem_nil, or_false] at found
  rcases found with rfl | rfl
  · exact absurd touches List.not_mem_nil
  · rw [List.mem_singleton.mp touches] at above
    have below := under_below (Layout.new r.scratch).root c.target (down c carried)
    exact (root_apart outside kernel member).2 (below.trans above)

theorem moves_rooted (outside : Outside r.scratch.place) {between after : MountTable}
    (rooted : Rooted between (Layout.new r.scratch).root.place)
    (done : execute between (kernelMoves (Layout.new r.scratch).root) = .ok after) :
    Rooted after (Layout.new r.scratch).root.place := by
  obtain ⟨mount, visible, point⟩ := rooted
  refine ⟨mount, Eq.trans ?_ visible, point⟩
  apply execute_elsewhere done
  have moves : kernelMoves (Layout.new r.scratch).root =
      kernelMounts.flatMap fun kernel => moveSteps (Layout.new r.scratch).root kernel.1 := rfl
  rw [moves]
  intro step member
  obtain ⟨kernel, known, found⟩ := List.mem_flatMap.mp member
  apply move_steps_touch (root_apart outside kernel known).1 _ step found
  intro above
  have length := above.length_le
  rw [List.length_append, List.length_singleton] at length
  omega

theorem mem_front {step : Step} (member : step ∈ frontSteps r) :
    (∃ path, step = .mkdir path) ∨ (∃ source target, step = .mount source target) ∨
      ∃ lower upper work target, step = .overlay lower upper work target := by
  simp only [frontSteps, earlyMounts, baseSteps, layerSteps, rootSteps, List.cons_append,
    List.nil_append, List.mem_cons, List.not_mem_nil, or_false] at member
  rcases member with rfl | rfl | rfl | rfl | rfl | rfl | rfl | rfl | rfl | rfl | rfl
  · exact .inr (.inl ⟨_, _, rfl⟩)
  · exact .inr (.inl ⟨_, _, rfl⟩)
  · exact .inr (.inl ⟨_, _, rfl⟩)
  · exact .inl ⟨_, rfl⟩
  · exact .inr (.inl ⟨_, _, rfl⟩)
  · exact .inl ⟨_, rfl⟩
  · exact .inr (.inl ⟨_, _, rfl⟩)
  · exact .inl ⟨_, rfl⟩
  · exact .inl ⟨_, rfl⟩
  · exact .inl ⟨_, rfl⟩
  · exact .inr (.inr ⟨_, _, _, _, rfl⟩)

theorem mem_carries {root : Path} {carry : List Carry} {step : Step}
    (member : step ∈ carry.flatMap (carrySteps root)) :
    (∃ path, step = .mkdir path) ∨ ∃ c ∈ carry, step = .bind c.origin (under root c.target) := by
  obtain ⟨c, carried, found⟩ := List.mem_flatMap.mp member
  simp only [carrySteps, List.mem_cons, List.not_mem_nil, or_false] at found
  rcases found with rfl | rfl
  · exact .inl ⟨_, rfl⟩
  · exact .inr ⟨c, carried, rfl⟩

theorem plan_in_root (down : ∀ c ∈ r.carry, .up ∉ c.target.steps) :
    Throughout perform (InRoot (Layout.new r.scratch).root) start (plan r) := by
  rw [plan_front, behindRoot, throughout_append]
  constructor
  · apply throughout_of_all
    intro step member table
    rcases mem_front member with ⟨path, rfl⟩ | ⟨source, target, rfl⟩ | ⟨_, _, _, _, rfl⟩
    all_goals trivial
  intro between front
  rw [throughout_append]
  refine ⟨(carries_in_root down (front_rooted front)).1, fun carried _ => ?_⟩
  apply throughout_of_all
  intro step member table
  simp only [kernelMoves, moveSteps, List.flatMap_cons, List.flatMap_nil, List.cons_append,
    List.nil_append, List.mem_cons, List.not_mem_nil, or_false] at member
  rcases member with rfl | rfl | rfl | rfl | rfl | rfl | rfl
  all_goals trivial

theorem switch_root_ends {table : MountTable} {root : Path} (rooted : Rooted table root.place) :
    switchRoot table root = .ok table :=
  if_pos rooted

theorem plan_hands_over (outside : Outside r.scratch.place)
    (down : ∀ c ∈ r.carry, .up ∉ c.target.steps) :
    Throughout perform HandsOver start (plan r) ∧ ∀ after, execute start (plan r) = .ok after →
      ∀ kernel ∈ kernelMounts,
        Shows after ((Layout.new r.scratch).root.place ++ [kernel.1]) (.kernel kernel.2) := by
  have landing : ∀ {carried : MountTable},
      (∀ kernel ∈ kernelMounts, Shows carried [kernel.1] (.kernel kernel.2)) →
      Throughout perform HandsOver carried (kernelMoves (Layout.new r.scratch).root) ∧
        ∀ after, execute carried (kernelMoves (Layout.new r.scratch).root) = .ok after →
          ∀ kernel ∈ kernelMounts,
            Shows after ((Layout.new r.scratch).root.place ++ [kernel.1]) (.kernel kernel.2) :=
    fun shows => moves_land r outside kernelMounts (fun _ known => known) (by decide) shows
  rw [plan_front, behindRoot]
  constructor
  · rw [throughout_append]
    constructor
    · apply throughout_of_all
      intro step member table
      rcases mem_front member with ⟨path, rfl⟩ | ⟨source, target, rfl⟩ | ⟨_, _, _, _, rfl⟩
      all_goals trivial
    intro between front
    rw [throughout_append]
    constructor
    · apply throughout_of_all
      intro step member table
      rcases mem_carries member with ⟨path, rfl⟩ | ⟨c, _, rfl⟩
      all_goals trivial
    intro carried done
    have rooted := (carries_in_root down (front_rooted front)).2 carried done
    rw [throughout_append]
    refine ⟨(landing (carries_show outside down (front_shows front) done)).1, ?_⟩
    intro moved moving
    exact ⟨⟨moved, switch_root_ends (moves_rooted outside rooted moving)⟩, fun _ _ => trivial⟩
  · intro after done
    obtain ⟨between, front, rest⟩ := attempt_split done
    obtain ⟨carried, carrying, rest'⟩ := attempt_split rest
    obtain ⟨moved, moving, last⟩ := attempt_split rest'
    obtain ⟨handed, switched, ended⟩ := of_bind_ok last
    have rooted := (carries_in_root down (front_rooted front)).2 carried carrying
    have same := switch_root_ends (moves_rooted outside rooted moving)
    rw [perform, same] at switched
    cases switched
    cases ended
    exact (landing (carries_show outside down (front_shows front) carrying)).2 _ moving

/-! ## Safety -/

/-- The steps that end a plan. -/
def Step.handsOver : Step → Bool
  | .move _ _ => true
  | .switchRoot _ _ _ => true
  | _ => false

/-- Everything that a plan, run from an initramfs, should keep; `rdonly` says how the layer of
the overlay's upper and work directories is mounted. -/
structure PlanSafe (r : Recipe) (rdonly : Bool) (start : MountTable) : Prop where
  targets : Throughout perform TargetThere start (plan r)
  base : ∀ done rest table, plan r = done ++ rest → execute start done = .ok table →
    BaseReadOnly r.base table
  layer : Throughout perform (OnLayer r rdonly) start (plan r)
  order : ∃ before, plan r = before ++ kernelMoves (Layout.new r.scratch).root ++
      [.switchRoot (Layout.new r.scratch).root r.init r.initArgs] ∧
    (∀ step ∈ before, step.handsOver = false) ∧
    ∀ c ∈ r.carry, .bind c.origin (under (Layout.new r.scratch).root c.target) ∈ before
  landed : ∀ c ∈ r.carry, .up ∉ c.target.steps →
    (Layout.new r.scratch).root.place <+: (under (Layout.new r.scratch).root c.target).place
  inRoot : (∀ c ∈ r.carry, .up ∉ c.target.steps) →
    Throughout perform (InRoot (Layout.new r.scratch).root) start (plan r)
  moved : (∀ c ∈ r.carry, .up ∉ c.target.steps) →
    Throughout perform HandsOver start (plan r) ∧ ∀ after, execute start (plan r) = .ok after →
      ∀ kernel ∈ kernelMounts,
        Shows after ((Layout.new r.scratch).root.place ++ [kernel.1]) (.kernel kernel.2)

theorem plan_order (r : Recipe) : ∃ before, plan r =
      before ++ kernelMoves (Layout.new r.scratch).root ++
        [.switchRoot (Layout.new r.scratch).root r.init r.initArgs] ∧
    (∀ step ∈ before, step.handsOver = false) ∧
    ∀ c ∈ r.carry, .bind c.origin (under (Layout.new r.scratch).root c.target) ∈ before := by
  refine ⟨frontSteps r ++ r.carry.flatMap (carrySteps (Layout.new r.scratch).root), ?_, ?_, ?_⟩
  · rw [plan_front, behindRoot]
    simp only [List.append_assoc]
  · intro step member
    rcases List.mem_append.mp member with front | carried
    · rcases mem_front front with ⟨path, rfl⟩ | ⟨source, target, rfl⟩ | ⟨_, _, _, _, rfl⟩
      all_goals rfl
    · rcases mem_carries carried with ⟨path, rfl⟩ | ⟨c, _, rfl⟩
      all_goals rfl
  · intro c member
    apply List.mem_append_right
    exact List.mem_flatMap.mpr ⟨c, member, List.mem_cons_of_mem _ List.mem_cons_self⟩

/-- The plan of every recipe keeps all of it; its layer is writable unless the Home source
itself is marked read-only. -/
theorem plan_is_safe (r : Recipe) (start : MountTable) (outside : Outside r.scratch.place)
    (apart : ∀ home, r.mode = .home home → home.dev.place ≠ r.base.dev.place)
    (initramfs : Initramfs r start) : PlanSafe r r.overSource.flags.rdonly start where
  targets := plan_targets initramfs
  base _ _ _ split ended := plan_base initramfs apart split ended
  layer := plan_layer initramfs outside
  order := plan_order r
  landed c _ down := under_below _ c.target down
  inRoot down := plan_in_root down
  moved down := plan_hands_over outside down

end Run

/-! ### A run -/

def sampleRecipe (home : MountFlags) : Recipe where
  scratch := .ofNames true ["run", "horizon"]
  base := ⟨.ofNames true ["dev", "vda2"], "squashfs", {}⟩
  mode := .home ⟨.ofNames true ["dev", "mapper", "horizon-home"], "ext4", home⟩
  carry := [⟨.ofNames true ["run", "horizon", "data"], .ofNames true ["run", "horizon", "store"]⟩]
  init := defaultInit
  initArgs := ["boot"]

/-- The initramfs alone; the layer has been written to before. -/
def sampleStart : MountTable where
  mounts := [⟨[], .initramfs, [], false⟩]
  dirs fs dir :=
    match fs with
    | .initramfs => dir ∈ [["dev"], ["proc"], ["sys"], ["run"], ["run", "horizon"],
        ["run", "horizon", "data"]]
    | .device _ => dir ∈ [["upper"], ["work"]]
    | _ => false

theorem sample_initramfs (home : MountFlags) : Initramfs (sampleRecipe home) sampleStart where
  kernel := by decide
  base := by
    intro mount member device
    rw [List.mem_singleton.mp member] at device
    cases device
  fresh := by
    rintro _ ⟨⟩ same
    rw [over_place] at same
    exact List.append_ne_nil_of_right_ne_nil _ (List.cons_ne_nil _ _) same.symm

/-- The whole plan runs through, from there. -/
example : (execute sampleStart (plan (sampleRecipe {}))).toOption.isSome = true := by decide

theorem sample_is_safe : PlanSafe (sampleRecipe {}) false sampleStart :=
  plan_is_safe (sampleRecipe {}) sampleStart (by decide)
    (by rintro _ ⟨⟩; decide) (sample_initramfs {})

/-- A Home source marked read-only is mounted so, and nothing can be written to the overlay. -/
theorem read_only_home_not_writable : ¬∀ (r : Recipe) (start : MountTable),
    Outside r.scratch.place →
    (∀ home, r.mode = .home home → home.dev.place ≠ r.base.dev.place) → Initramfs r start →
    PlanSafe r false start := by
  intro safe
  have layer := (safe (sampleRecipe { rdonly := true }) sampleStart (by decide)
    (by rintro _ ⟨⟩; decide) (sample_initramfs _)).layer
  have split : plan (sampleRecipe { rdonly := true }) =
      (plan (sampleRecipe { rdonly := true })).take 10 ++
        (plan (sampleRecipe { rdonly := true })).drop 10 := (List.take_append_drop 10 _).symm
  have mounted : ((execute sampleStart ((plan (sampleRecipe { rdonly := true })).take 10)).toOption.bind
      fun table => table.visible ["run", "horizon", "over", "upper"]).map (·.rdonly) = some true := by
    decide
  rw [split, throughout_append] at layer
  cases reached : execute sampleStart ((plan (sampleRecipe { rdonly := true })).take 10) with
  | error failure =>
      rw [reached] at mounted
      cases mounted
  | ok table =>
      rw [reached] at mounted
      obtain ⟨⟨_, _, upper, visible, _, _, writable, _⟩, _⟩ := layer.2 table reached
      have seen : table.visible ["run", "horizon", "over", "upper"] = some upper := visible
      have rdonly : (table.visible ["run", "horizon", "over", "upper"]).map (·.rdonly) =
          some true := mounted
      rw [seen, Option.map_some, writable] at rdonly
      cases rdonly

end HorizonOs.Init
