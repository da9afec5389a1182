import HorizonOs.Cells.World
import HorizonOs.Lib.Triples

/-!
# Confinement

When the payload runs, the process it runs in has left the host, sees of its files what was granted
and no more, and holds no descriptor that it was not to keep.
-/

namespace HorizonOs.Cells

open HorizonOs.Lib.ByteCodec HorizonOs.Lib.LexicalPath HorizonOs.Lib.MountTable HorizonOs.Lib.Runs
  HorizonOs.Lib.Text HorizonOs.Lib.Triples

set_option autoImplicit false

/-! ## What a cell may see -/

/-- The binds of a cell, and the nodes of its /dev. -/
def Cell.grants (cell : Cell) : List Bind :=
  cell.binds ++ if cell.mountDev then devNodes.map devBind else []

/-- A directory of a filesystem, and whether it is read-only. -/
abbrev Seen := Filesystem × List Bytes × Bool

/-- What the host shows at the source of a bind or below, and for writing only where the host's own
mount allows it: where the bind is for writing, and on mounts that stand below the source. -/
def Granted (begun : World) (bind : Bind) (seen : Seen) : Prop :=
  ∃ place mount, begun.place bind.src <+: place ∧ begun.mounts.visible place = some mount ∧
    seen.1 = mount.fs ∧ seen.2.1 = Table.shown mount place ∧
    (seen.2.2 = false → mount.rdonly = false ∧
      (bind.writable = true ∨
        begun.place bind.src <+: mount.point ∧ mount.point ≠ begun.place bind.src))

def Allowed (cell : Cell) (begun : World) (seen : Seen) : Prop :=
  seen.1 = .cellRoot ∨ (cell.mountProc = true ∧ seen.1 = .proc false) ∨
    ∃ bind ∈ cell.grants, Granted begun bind seen

def asSeen (mount : Mounted Bytes Filesystem) (spot : List Bytes) : Seen :=
  (mount.fs, Table.shown mount spot, mount.rdonly)

/-- While the root is built, all that differs from the host is allowed, and so is all that the stage
shows. -/
structure Sealed (cell : Cell) (begun : World) (stage : List Bytes) (mounts : Mounts) : Prop where
  own : ∀ spot mount, mounts.visible spot = some mount →
    Allowed cell begun (asSeen mount spot) ∨ begun.mounts.visible spot = some mount
  inside : ∀ spot mount, stage <+: spot → mounts.visible spot = some mount →
    Allowed cell begun (asSeen mount spot)

section Sealing

variable {cell : Cell} {begun : World} {stage : List Bytes} {table between after : Mounts}

theorem Allowed.read_only {seen : Seen} (allowed : Allowed cell begun seen) :
    Allowed cell begun (seen.1, seen.2.1, true) := by
  rcases allowed with root | proc | ⟨bind, member, place, mount, below, visible, fs, dir, _⟩
  · exact .inl root
  · exact .inr (.inl proc)
  · refine .inr (.inr ⟨bind, member, place, mount, below, visible, fs, dir, ?_⟩)
    intro writable
    cases writable

/-- Where a change is allowed and everything else stays, all stays sealed. -/
theorem Sealed.over (done : Sealed cell begun stage table) (target : List Bytes)
    (below : ∀ spot mount, target <+: spot → after.visible spot = some mount →
      Allowed cell begun (asSeen mount spot))
    (elsewhere : ∀ spot, ¬target <+: spot → after.visible spot = table.visible spot) :
    Sealed cell begun stage after := by
  constructor
  · intro spot mount visible
    by_cases under : target <+: spot
    · exact .inl (below spot mount under visible)
    · rw [elsewhere spot under] at visible
      exact done.own spot mount visible
  · intro spot mount inside visible
    by_cases under : target <+: spot
    · exact below spot mount under visible
    · rw [elsewhere spot under] at visible
      exact done.inside spot mount inside visible

theorem visible_of_mounts (same : after.mounts = table.mounts) (spot : List Bytes) :
    after.visible spot = table.visible spot := by
  rw [Table.visible, Table.visible, same]

theorem Sealed.of_mounts (done : Sealed cell begun stage table)
    (same : after.mounts = table.mounts) : Sealed cell begun stage after := by
  apply done.over stage
  · intro spot mount inside visible
    rw [visible_of_mounts same] at visible
    exact done.inside spot mount inside visible
  · intro spot _
    exact visible_of_mounts same spot

/-- A fresh root on the stage seals it. -/
theorem sealed_start (untouched : table.mounts = begun.mounts.mounts) {rdonly : Bool}
    (made : table.mount ⟨stage, .cellRoot, [], rdonly⟩ = .ok after) :
    Sealed cell begun stage after := by
  have inside : ∀ spot mount, stage <+: spot → after.visible spot = some mount →
      Allowed cell begun (asSeen mount spot) := by
    intro spot mount below visible
    have top := mount_below made below
    rw [visible] at top
    cases top
    exact .inl rfl
  constructor
  · intro spot mount visible
    by_cases below : stage <+: spot
    · exact .inl (inside spot mount below visible)
    · rw [mount_elsewhere made below, visible_of_mounts untouched] at visible
      exact .inr visible
  · exact inside

theorem Sealed.mounted_proc (done : Sealed cell begun stage table) (granted : cell.mountProc = true)
    {target : List Bytes} (made : table.mount ⟨target, .proc false, [], false⟩ = .ok after) :
    Sealed cell begun stage after := by
  apply done.over target
  · intro spot mount below visible
    have top := mount_below made below
    rw [visible] at top
    cases top
    exact .inr (.inl ⟨granted, rfl⟩)
  · intro spot elsewhere
    exact mount_elsewhere made elsewhere

/-- What a granted bind shows is allowed, once it is finished: remounted where it is read-only. -/
theorem Sealed.granted {bind : Bind} {target : List Bytes} (done : Sealed cell begun stage table)
    (member : bind ∈ cell.grants)
    (bound : table.bind (begun.place bind.src) target = .ok between)
    (finished : ∀ spot, after.visible spot = (between.visible spot).map fun mount =>
      if bind.writable = false ∧ mount.point = target then { mount with rdonly := true }
      else mount) :
    Sealed cell begun stage after := by
  apply done.over target
  · intro spot last below visible
    obtain ⟨deep, rfl⟩ := below
    obtain ⟨before, now, was, is_, fs, rdonly, shown, which⟩ := bind_below bound deep
    rw [finished, is_, Option.map_some] at visible
    have same : Allowed cell begun (asSeen before (begun.place bind.src ++ deep)) →
        Allowed cell begun (asSeen now (target ++ deep)) := by
      intro allowed
      rw [asSeen, fs, rdonly, shown]
      exact allowed
    rcases done.own _ before was with allowed | own
    · split_ifs at visible with remounted
      · cases visible
        exact (same allowed).read_only
      · cases visible
        exact same allowed
    · refine .inr (.inr ⟨bind, member, begun.place bind.src ++ deep, before,
        List.prefix_append _ _, own, ?_⟩)
      split_ifs at visible with remounted
      · cases visible
        refine ⟨fs, shown, ?_⟩
        intro writable
        cases writable
      · cases visible
        refine ⟨fs, shown, ?_⟩
        intro writable
        refine ⟨rdonly.symm.trans writable, ?_⟩
        rcases which with ⟨point, _⟩ | ⟨_, _, under, strictly⟩
        · left
          rw [← Bool.not_eq_false]
          exact fun read_only => remounted ⟨read_only, point⟩
        · exact .inr ⟨under, strictly⟩
  · intro spot elsewhere
    rw [finished, bind_elsewhere bound elsewhere]
    cases visible : table.visible spot with
    | none => rfl
    | some mount =>
        have apart : ¬(bind.writable = false ∧ mount.point = target) := by
          intro both
          exact elsewhere (both.2 ▸ (visible_above visible).2)
        rw [Option.map_some, if_neg apart]

/-- Once the stage is the root, all that is seen is allowed. -/
theorem Sealed.pivoted (done : Sealed cell begun stage table)
    (moved : table.pivot stage [putOld] = .ok between)
    (gone : between.detach [putOld] = .ok after) (spot : List Bytes) (seen : Seen)
    (sees : after.sees spot = some seen) : Allowed cell begun seen := by
  rw [pivot_detach moved gone, Table.sees, Option.map_eq_some_iff] at sees
  obtain ⟨mount, visible, rfl⟩ := sees
  exact done.inside _ mount (List.prefix_append _ _) visible

end Sealing

/-! ## What each step ensures -/

/-- A failure names a step. -/
def Named (error : Int32 × Int32) (_ : World) : Prop := stepName error.1 ≠ "unknown step"

section Steps

variable {host : Host} {report : Int} {cell : Cell} {begun : World} {stage : Bytes}

theorem sys_triple {step : Int32} {call : World → Except Int32 World} {before after : World → Prop}
    (named : stepName step ≠ "unknown step")
    (holds : ∀ world, before world → ∀ later,
      call { world with calls := world.calls + 1 } = .ok later → after later) :
    Triple before (sys host step call) (fun _ => after) Named := by
  intro world start
  rw [sys]
  cases host.fault world.calls with
  | some errno =>
      constructor
      · intro value later ended
        cases ended
      · intro error later ended
        cases ended
        exact named
  | none =>
      cases made : call { world with calls := world.calls + 1 } with
      | ok next =>
          constructor
          · intro value later ended
            cases ended
            exact holds world start _ made
          · intro error later ended
            cases ended
      | error errno =>
          constructor
          · intro value later ended
            cases ended
          · intro error later ended
            cases ended
            exact named

theorem renamed_triple {name : Int32 × Int32 → Int32 × Int32} {action : Setup Unit}
    {before after : World → Prop}
    (named : ∀ error, stepName error.1 ≠ "unknown step" → stepName (name error).1 ≠ "unknown step")
    (triple : Triple before action (fun _ => after) Named) :
    Triple before (renamed name action) (fun _ => after) Named := by
  intro world start
  obtain ⟨fine, bad⟩ := triple world start
  rw [renamed]
  cases outcome : action world with
  | ok value later =>
      constructor
      · intro value' later' ended
        cases ended
        exact fine _ _ outcome
      · intro error later' ended
        cases ended
  | error error later =>
      constructor
      · intro value' later' ended
        cases ended
      · intro error' later' ended
        cases ended
        exact named error (bad error later outcome)

/-- Every descriptor the process was started with is open, but the one it reports to. -/
def Held (report : Int) (begun world : World) : Prop :=
  ∀ fd ∈ begun.fds, fd.number ≠ report → ∃ same ∈ world.fds, same.number = fd.number

/-- The process is out of the host's namespaces, and is the host's own user under another number. -/
structure Entered (host : Host) (begun world : World) : Prop where
  inHost : world.inHost = false
  hostPids : world.hostPids = false
  groups : world.groupsDenied = true
  gidMap : world.gidMap = some s!"0 {host.gid} 1\n"
  uidMap : world.uidMap = some s!"0 {host.uid} 1\n"
  leaked : world.leaked = begun.leaked

/-- Mounts are made out of the host's sight. -/
structure Building (host : Host) (report : Int) (begun : World) (cwd : List Bytes)
    (made : Mounts → Prop) (world : World) : Prop where
  entered : Entered host begun world
  held : Held report begun world
  filters : world.filters = begun.filters
  apart : world.propagates = false
  cwd : world.cwd = cwd
  made : made world.mounts

theorem Building.called {cwd : List Bytes} {made : Mounts → Prop} {world : World}
    (building : Building host report begun cwd made world) (calls : Nat) :
    Building host report begun cwd made { world with calls } :=
  { building with entered := { building.entered with } }

theorem on_mounts_ok {world later : World} {change : Mounts → Except Failure Mounts}
    (changed : world.onMounts change = .ok later) :
    ∃ mounts, change world.mounts = .ok mounts ∧ later = { world with mounts } := by
  rw [World.onMounts] at changed
  cases outcome : change world.mounts with
  | ok mounts =>
      rw [outcome] at changed
      cases changed
      exact ⟨mounts, rfl, rfl⟩
  | error failure =>
      rw [outcome] at changed
      cases changed

/-- Files are made where mounts lead, and mounts stay. -/
theorem on_mounts_triple {step : Int32} {cwd : List Bytes} {made made' : Mounts → Prop}
    {change : World → Mounts → Except Failure Mounts} (named : stepName step ≠ "unknown step")
    (holds : ∀ world mounts, Building host report begun cwd made world →
      change world world.mounts = .ok mounts → made' mounts) :
    Triple (Building host report begun cwd made)
      (sys host step fun world => world.onMounts (change world))
      (fun _ => Building host report begun cwd made') Named := by
  apply sys_triple named
  intro world building later changed
  have called := building.called (world.calls + 1)
  obtain ⟨mounts, outcome, rfl⟩ := on_mounts_ok changed
  exact { called with
    entered := { called.entered with }
    made := holds _ mounts called outcome }

/-- A mount is made, and does not show on the host. -/
theorem mounting_triple {step : Int32} {cwd : List Bytes} {made made' : Mounts → Prop}
    {change : World → Mounts → Except Failure Mounts} (named : stepName step ≠ "unknown step")
    (holds : ∀ world mounts, Building host report begun cwd made world →
      change world world.mounts = .ok mounts → made' mounts) :
    Triple (Building host report begun cwd made)
      (sys host step fun world => world.mounting (change world))
      (fun _ => Building host report begun cwd made') Named := by
  apply sys_triple named
  intro world building later changed
  have called := building.called (world.calls + 1)
  obtain ⟨mounts, outcome, rfl⟩ := on_mounts_ok changed
  have kept : (world.leaked || world.propagates) = begun.leaked := by
    rw [building.apart, Bool.or_false]
    exact building.entered.leaked
  exact { called with
    entered := { called.entered with leaked := kept }
    made := holds _ mounts called outcome }

/-! ### The root -/

theorem mkdirs_triple {step : Int32} {cwd : List Bytes} {made : Mounts → Prop}
    (parts : List Component) (named : stepName step ≠ "unknown step")
    (kept : ∀ table after : Mounts, made table → after.mounts = table.mounts → made after) :
    Triple (Building host report begun cwd made) (mkdirs host step parts)
      (fun _ => Building host report begun cwd made) Named := by
  apply on_mounts_triple named
  intro world mounts building done
  exact kept _ mounts building.made (make_dirs_ok done).1

theorem write_empty_mounts {table after : Mounts} {place : List Bytes}
    (written : writeEmpty table place = .ok after) : after.mounts = table.mounts := by
  rw [writeEmpty] at written
  cases visible : table.visible place with
  | none =>
      rw [visible] at written
      cases written
  | some mount =>
      rw [visible] at written
      simp only at written
      split_ifs at written
      exact (make_dir_ok written).1

/-- The root is being built on a sealed stage. -/
abbrev Rooted (host : Host) (report : Int) (cell : Cell) (begun : World) (place : List Bytes) :
    World → Prop :=
  Building host report begun begun.cwd (Sealed cell begun place)

theorem sealed_kept {place : List Bytes} (table after : Mounts)
    (done : Sealed cell begun place table) (same : after.mounts = table.mounts) :
    Sealed cell begun place after :=
  done.of_mounts same

/-- A grant is bound, and not yet read-only. -/
def Bound (cell : Cell) (begun : World) (place : List Bytes) (stage : Bytes) (bind : Bind)
    (mounts : Mounts) : Prop :=
  ∃ table, Sealed cell begun place table ∧
    table.bind (begun.place bind.src) (resolve begun.cwd (targetOf stage bind.dst)) = .ok mounts

theorem make_target_triple {place : List Bytes} (src target : Bytes) :
    Triple (Rooted host report cell begun place) (makeTarget host src target)
      (fun _ => Rooted host report cell begun place) Named := by
  apply Triple.ite
  · exact fun _ => mkdirs_triple _ (by decide) sealed_kept
  · intro _
    have to_parent : Triple (Rooted host report cell begun place)
        (mkdirs host sMkdir (components target).dropLast)
        (fun _ => Rooted host report cell begun place) Named :=
      mkdirs_triple _ (by decide) sealed_kept
    refine to_parent.bind fun _ => ?_
    apply on_mounts_triple (by decide)
    intro world mounts building written
    exact building.made.of_mounts (write_empty_mounts written)

theorem bind_into_triple {place : List Bytes} (bind : Bind) (granted : bind ∈ cell.grants) :
    Triple (Rooted host report cell begun place) (bindInto host stage bind)
      (fun _ => Rooted host report cell begun place) Named := by
  have to_bind : Triple (Rooted host report cell begun place)
      (sys host sBind fun world => world.mounting fun mounts =>
        mounts.bind (world.place bind.src) (world.place (targetOf stage bind.dst)))
      (fun _ => Building host report begun begun.cwd (Bound cell begun place stage bind)) Named := by
    apply mounting_triple (by decide)
    intro world mounts building done
    rw [World.place, World.place, building.cwd] at done
    exact ⟨world.mounts, building.made, done⟩
  have to_finish : Triple (Building host report begun begun.cwd (Bound cell begun place stage bind))
      (if bind.writable then pure ()
        else sys host sBind fun world => world.mounting fun mounts =>
          mounts.remount (world.place (targetOf stage bind.dst)))
      (fun _ => Rooted host report cell begun place) Named := by
    apply Triple.ite
    · intro writable
      refine Triple.pure _ fun world building => ?_
      obtain ⟨table, sealed_, done⟩ := building.made
      refine { building with made := sealed_.granted granted done fun spot => ?_ }
      have apart : ∀ mount : Mounted Bytes Filesystem, ¬(bind.writable = false ∧
          mount.point = resolve begun.cwd (targetOf stage bind.dst)) := by
        intro mount both
        rw [writable] at both
        cases both.1
      simp only [apart, if_false, Option.map_id']
    · intro read_only
      rw [Bool.not_eq_true] at read_only
      apply mounting_triple (by decide)
      intro world mounts building done
      rw [World.place, building.cwd] at done
      obtain ⟨table, sealed_, between⟩ := building.made
      refine sealed_.granted granted between fun spot => ?_
      simp only [read_only, true_and]
      exact remount_visible done spot
  exact (make_target_triple _ _).bind fun _ => to_bind.bind fun _ => to_finish

theorem dev_into_triple {place : List Bytes} (mounted : cell.mountDev = true) :
    Triple (Rooted host report cell begun place) (devInto host stage)
      (fun _ => Rooted host report cell begun place) Named := by
  have to_dir : Triple (Rooted host report cell begun place)
      (mkdirs host sDev (components (staged stage (utf8 "dev"))))
      (fun _ => Rooted host report cell begun place) Named :=
    mkdirs_triple _ (by decide) sealed_kept
  refine to_dir.bind fun _ => Triple.forM fun name member => ?_
  apply renamed_triple
  · intro error _
    change stepName sDev ≠ "unknown step"
    decide
  · apply bind_into_triple
    rw [Cell.grants, mounted, if_pos rfl]
    exact List.mem_append_right _ (List.mem_map_of_mem member)

theorem proc_into_triple {place : List Bytes} (mounted : cell.mountProc = true) :
    Triple (Rooted host report cell begun place) (procInto host stage)
      (fun _ => Rooted host report cell begun place) Named := by
  have to_dir : Triple (Rooted host report cell begun place)
      (mkdirs host sProc (components (staged stage (utf8 "proc"))))
      (fun _ => Rooted host report cell begun place) Named :=
    mkdirs_triple _ (by decide) sealed_kept
  refine to_dir.bind fun _ => ?_
  apply mounting_triple (by decide)
  intro world mounts building made
  rw [building.entered.hostPids] at made
  exact building.made.mounted_proc mounted made

/-- Nothing is mounted yet, and directories are made for the stage. -/
abbrev Bare (begun : World) (mounts : Mounts) : Prop := mounts.mounts = begun.mounts.mounts

theorem stage_triple :
    Triple (Building host report begun begun.cwd (Bare begun))
      (sys host sTmpfs fun world => world.mounting fun mounts =>
        mounts.mount ⟨world.place stage, .cellRoot, [], false⟩)
      (fun _ => Rooted host report cell begun (begun.place stage)) Named := by
  apply mounting_triple (by decide)
  intro world mounts building made
  rw [World.place, building.cwd] at made
  exact sealed_start building.made made

/-- All that is seen is allowed. -/
def Shown (cell : Cell) (begun : World) (mounts : Mounts) : Prop :=
  ∀ spot seen, mounts.sees spot = some seen → Allowed cell begun seen

/-- The stage is the root, and the old root is still below it. -/
def Pivoted (cell : Cell) (begun : World) (place : List Bytes) (mounts : Mounts) : Prop :=
  ∃ table, Sealed cell begun place table ∧ table.pivot place [putOld] = .ok mounts

theorem pivot_triple :
    Triple (Rooted host report cell begun (begun.place stage)) (pivot host stage)
      (fun _ => Building host report begun [] (Shown cell begun)) Named := by
  have to_stage : Triple (Rooted host report cell begun (begun.place stage))
      (sys host sPivot fun world =>
        if world.mounts.isDir (world.place stage) then .ok { world with cwd := world.place stage }
        else .error (errnoOf .noTarget))
      (fun _ => Building host report begun (begun.place stage)
        (Sealed cell begun (begun.place stage))) Named := by
    apply sys_triple (by decide)
    intro world building later entered
    have called := building.called (world.calls + 1)
    split_ifs at entered
    cases entered
    exact { called with
      entered := { called.entered with }
      cwd := by
        change resolve world.cwd stage = resolve begun.cwd stage
        rw [building.cwd] }
  have to_root : Triple (Building host report begun (begun.place stage)
        (Sealed cell begun (begun.place stage)))
      (sys host sPivot fun world => do
        let after ← world.mounting fun mounts => mounts.pivot world.cwd [putOld]
        .ok { after with cwd := [] })
      (fun _ => Building host report begun [] (Pivoted cell begun (begun.place stage))) Named := by
    apply sys_triple (by decide)
    intro world building later moved
    have called := building.called (world.calls + 1)
    obtain ⟨after, mounted, done⟩ := of_bind_ok moved
    obtain ⟨mounts, outcome, rfl⟩ := on_mounts_ok mounted
    cases done
    have kept : (world.leaked || world.propagates) = begun.leaked := by
      rw [building.apart, Bool.or_false]
      exact building.entered.leaked
    have from_stage : world.mounts.pivot (begun.place stage) [putOld] = .ok mounts := by
      rw [← building.cwd]
      exact outcome
    exact { called with
      entered := { called.entered with leaked := kept }
      cwd := rfl
      made := ⟨world.mounts, building.made, from_stage⟩ }
  have to_top : Triple (Building host report begun [] (Pivoted cell begun (begun.place stage)))
      (sys host sPivot fun world => .ok { world with cwd := [] })
      (fun _ => Building host report begun [] (Pivoted cell begun (begun.place stage))) Named := by
    apply sys_triple (by decide)
    intro world building later entered
    have called := building.called (world.calls + 1)
    cases entered
    exact { called with entered := { called.entered with }, cwd := rfl }
  have to_detach : Triple (Building host report begun [] (Pivoted cell begun (begun.place stage)))
      (sys host sPivot fun world => world.mounting fun mounts => mounts.detach [putOld])
      (fun _ => Building host report begun [] (Shown cell begun)) Named := by
    apply mounting_triple (by decide)
    intro world mounts building gone
    obtain ⟨table, sealed_, moved⟩ := building.made
    exact sealed_.pivoted moved gone
  exact to_stage.bind fun _ => to_root.bind fun _ => to_top.bind fun _ => to_detach

/-! ### Leaving the host -/

/-- Closing one descriptor, or marking it, concerns descriptors alone. -/
theorem close_fd_eq (fd : Int) (world : World) : closeFd host fd world =
    { world with fds := (closeFd host fd world).fds } := by
  rw [closeFd]
  split_ifs <;> rfl

theorem set_cloexec_eq (on : Bool) (fd : Int) (world : World) : setCloexec host on fd world =
    { world with fds := (setCloexec host on fd world).fds } := by
  rw [setCloexec]
  split_ifs <;> rfl

/-- Closing a descriptor closes no other. -/
theorem close_fd_held {world : World} {fd number : Int} (apart : number ≠ fd)
    (held : ∃ same ∈ world.fds, same.number = number) :
    ∃ same ∈ (closeFd host fd world).fds, same.number = number := by
  obtain ⟨same, member, rfl⟩ := held
  rw [closeFd]
  split_ifs
  · exact ⟨same, member, rfl⟩
  · exact ⟨same, List.mem_filter.mpr ⟨member, decide_eq_true apart⟩, rfl⟩

/-- A number that is found is not in use. -/
theorem lowest_fresh (fds : List OpenFd) (fd : OpenFd) (member : fd ∈ fds) :
    fd.number ≠ World.lowest fds := by
  rw [World.lowest]
  cases found : (List.range (fds.length + 1)).find? fun number =>
      fds.all fun fd => fd.number ≠ Int.ofNat number with
  | some number =>
      have free := List.find?_some found
      rw [List.all_eq_true] at free
      exact of_decide_eq_true (free fd member)
  | none =>
      -- then all of more numbers than there are descriptors are in use
      have used : (List.range (fds.length + 1)).map Int.ofNat ⊆ fds.map OpenFd.number := by
        intro number taken
        obtain ⟨plain, inside, rfl⟩ := List.mem_map.mp taken
        have busy := List.find?_eq_none.mp found plain inside
        rw [List.all_eq_true] at busy
        push Not at busy
        obtain ⟨user, there, same⟩ := busy
        rw [ne_eq, decide_eq_true_eq, not_not] at same
        exact List.mem_map.mpr ⟨user, there, same⟩
      have distinct : ((List.range (fds.length + 1)).map Int.ofNat).Nodup :=
        List.nodup_range.map Int.ofNat_injective
      have most := (distinct.subperm used).length_le
      rw [List.length_map, List.length_map, List.length_range] at most
      exact absurd most (Nat.not_succ_le_self _)

/-- The process has left the host's namespaces, and is nobody yet. -/
structure Left (begun world : World) : Prop where
  inHost : world.inHost = false
  leaked : world.leaked = begun.leaked
  filters : world.filters = begun.filters
  cwd : world.cwd = begun.cwd
  mounts : world.mounts = begun.mounts
  fds : world.fds = begun.fds

structure Mapped (host : Host) (begun world : World) : Prop where
  left : Left begun world
  groups : world.groupsDenied = true
  gidMap : world.gidMap = some s!"0 {host.gid} 1\n"
  uidMap : world.uidMap = some s!"0 {host.uid} 1\n"

/-- The first process of the cell, with a descriptor for its errors that was not in use before. -/
structure Ready (host : Host) (report : Int) (begun : World) (err : Int) (world : World) : Prop where
  entered : Entered host begun world
  held : Held report begun world
  filters : world.filters = begun.filters
  cwd : world.cwd = begun.cwd
  mounts : world.mounts = begun.mounts
  fresh : ∀ fd ∈ begun.fds, fd.number ≠ err

theorem write_maps_triple :
    Triple (Left begun) (writeMaps host) (fun _ => Mapped host begun) Named := by
  have to_groups : Triple (Left begun)
      (sys host sMap fun world => .ok { world with groupsDenied := true })
      (fun _ world => Left begun world ∧ world.groupsDenied = true) Named := by
    apply sys_triple (by decide)
    intro world left later written
    cases written
    exact ⟨{ left with }, rfl⟩
  have to_gid : Triple (fun world => Left begun world ∧ world.groupsDenied = true)
      (sys host sMap fun world =>
        if world.inHost ∨ ¬world.groupsDenied then .error eperm
        else .ok { world with gidMap := some s!"0 {host.gid} 1\n" })
      (fun _ world => (Left begun world ∧ world.groupsDenied = true) ∧
        world.gidMap = some s!"0 {host.gid} 1\n") Named := by
    apply sys_triple (by decide)
    intro world denied later written
    obtain ⟨left, groups⟩ := denied
    split_ifs at written
    cases written
    exact ⟨⟨{ left with }, groups⟩, rfl⟩
  have to_uid : Triple (fun world => (Left begun world ∧ world.groupsDenied = true) ∧
        world.gidMap = some s!"0 {host.gid} 1\n")
      (sys host sMap fun world => if world.inHost then .error eperm
        else .ok { world with uidMap := some s!"0 {host.uid} 1\n" })
      (fun _ => Mapped host begun) Named := by
    apply sys_triple (by decide)
    intro world mapped later written
    obtain ⟨⟨left, groups⟩, gid⟩ := mapped
    split_ifs at written
    cases written
    exact ⟨{ left with }, groups, gid, rfl⟩
  exact to_groups.bind fun _ => to_gid.bind fun _ => to_uid

/-- Both ends of a pipe are new, and every other descriptor stays. -/
theorem pipe_triple {step : Int32} (named : stepName step ≠ "unknown step") :
    Triple (Mapped host begun) (pipeRaw host step)
      (fun ends world => world.inHost = false ∧
        Ready host report begun ends.2 { world with hostPids := false } ∧
        ∀ fd ∈ begun.fds, fd.number ≠ ends.1) Named := by
  intro world mapped
  rw [pipeRaw]
  cases host.fault world.calls with
  | some errno =>
      constructor
      · intro value later ended
        cases ended
      · intro error later ended
        cases ended
        exact named
  | none =>
      constructor
      · intro ends later ended
        cases ended
        have there : ∀ fd ∈ begun.fds, fd ∈ world.fds := fun fd member =>
          mapped.left.fds ▸ member
        refine ⟨mapped.left.inHost, ?_, fun fd member => lowest_fresh _ fd (there fd member)⟩
        exact {
          entered := {
            inHost := mapped.left.inHost
            hostPids := rfl
            groups := mapped.groups
            gidMap := mapped.gidMap
            uidMap := mapped.uidMap
            leaked := mapped.left.leaked }
          held := fun fd member _ => ⟨fd, List.mem_append_left _ (List.mem_append_left _
            (there fd member)), rfl⟩
          filters := mapped.left.filters
          cwd := mapped.left.cwd
          mounts := mapped.left.mounts
          fresh := fun fd member => lowest_fresh _ fd (List.mem_append_left _ (there fd member)) }
      · intro error later ended
        cases ended

theorem Ready.closed {err fd : Int} {world : World} (ready : Ready host report begun err world)
    (apart : ∀ other ∈ begun.fds, other.number ≠ report → other.number ≠ fd) :
    Ready host report begun err (closeFd host fd world) := by
  have held : Held report begun (closeFd host fd world) := by
    intro other member foreign
    exact close_fd_held (apart other member foreign) (ready.held other member foreign)
  rw [close_fd_eq] at held ⊢
  exact { ready with entered := { ready.entered with }, held }

theorem cell_init_triple :
    Triple (fun world => world = begun) (cellInit host report) (Ready host report begun) Named := by
  have to_left : Triple (fun world => world = begun)
      (sys host sUnshare fun world => .ok { world with inHost := false })
      (fun _ => Left begun) Named := by
    apply sys_triple (by decide)
    intro world same later left
    cases left
    rw [same]
    exact ⟨rfl, rfl, rfl, rfl, rfl, rfl⟩
  have to_fork : ∀ ends : Int × Int, Triple
      (fun world => world.inHost = false ∧
        Ready host report begun ends.2 { world with hostPids := false } ∧
        ∀ fd ∈ begun.fds, fd.number ≠ ends.1)
      (sys host sFork fun world => .ok { world with hostPids := world.hostPids && world.inHost })
      (fun _ world => Ready host report begun ends.2 world ∧
        ∀ fd ∈ begun.fds, fd.number ≠ ends.1) Named := by
    intro ends
    apply sys_triple (by decide)
    intro world start later forked
    obtain ⟨out, ready, apart⟩ := start
    cases forked
    have own : (world.hostPids && world.inHost) = false := by rw [out, Bool.and_false]
    exact ⟨{ ready with entered := { ready.entered with hostPids := own } }, apart⟩
  refine to_left.bind fun _ => write_maps_triple.bind fun _ => ?_
  refine (pipe_triple (by decide)).bind fun ends => (to_fork ends).bind fun _ => ?_
  have to_close : Triple
      (fun world => Ready host report begun ends.2 world ∧ ∀ fd ∈ begun.fds, fd.number ≠ ends.1)
      (modify (closeFd host ends.1)) (fun _ => Ready host report begun ends.2) Named := by
    apply Triple.modify
    intro world start
    exact start.1.closed fun other member _ => start.2 other member
  have to_end : Triple (Ready host report begun ends.2)
      (modify (closeFd host report)) (fun _ => Ready host report begun ends.2) Named := by
    apply Triple.modify
    intro world ready
    exact ready.closed fun _ _ foreign => foreign
  exact to_close.bind fun _ => to_end.bind fun _ => Triple.pure _ fun _ ready => ready

/-! ### Locking down -/

def Seccomp.over (filters : List (List Int)) : Seccomp → List (List Int)
  | .none => filters
  | .block list => list :: filters

/-- All that a cell is, but for its descriptors. -/
structure Enclosed (host : Host) (cell : Cell) (begun world : World) : Prop where
  entered : Entered host begun world
  shown : Shown cell begun world.mounts
  cwd : world.cwd = []
  hostname : ∀ name ∈ cell.hostname, world.hostname = some name
  noNewPrivs : world.noNewPrivs = true
  filters : world.filters = cell.seccomp.over begun.filters

/-- The root of the cell is its own, and so is its name. -/
abbrev Lodged (host : Host) (report : Int) (cell : Cell) (begun world : World) : Prop :=
  Building host report begun [] (Shown cell begun) world ∧
    ∀ name ∈ cell.hostname, world.hostname = some name

theorem hostname_triple :
    Triple (Building host report begun [] (Shown cell begun)) (setHostname host cell.hostname)
      (fun _ => Lodged host report cell begun) Named := by
  cases chosen : cell.hostname with
  | none =>
      refine Triple.pure _ fun world building => ⟨building, ?_⟩
      intro name member
      rw [chosen] at member
      cases member
  | some name =>
      rw [setHostname]
      apply sys_triple (by decide)
      intro world building later named
      have called := building.called (world.calls + 1)
      cases named
      refine ⟨{ called with entered := { called.entered with } }, ?_⟩
      intro same member
      rw [chosen] at member
      exact member

theorem nopriv_triple :
    Triple (Lodged host report cell begun)
      (sys host sNopriv fun world => .ok { world with noNewPrivs := true })
      (fun _ world => Lodged host report cell begun world ∧ world.noNewPrivs = true) Named := by
  apply sys_triple (by decide)
  intro world lodged later set
  have called := lodged.1.called (world.calls + 1)
  cases set
  exact ⟨⟨{ called with entered := { called.entered with } }, lodged.2⟩, rfl⟩

theorem seccomp_triple :
    Triple (fun world => Lodged host report cell begun world ∧ world.noNewPrivs = true)
      (applySeccomp host cell.seccomp)
      (fun _ world => Enclosed host cell begun world ∧ Held report begun world) Named := by
  cases posture : cell.seccomp with
  | none =>
      refine Triple.pure _ fun world start => ?_
      obtain ⟨⟨building, named⟩, nopriv⟩ := start
      refine ⟨⟨building.entered, building.made, building.cwd, named, nopriv, ?_⟩, building.held⟩
      rw [posture]
      exact building.filters
  | block list =>
      rw [applySeccomp]
      apply renamed_triple
      · exact fun error named => named
      apply sys_triple (by decide)
      intro world start later applied
      obtain ⟨⟨building, named⟩, nopriv⟩ := start
      cases applied
      refine ⟨⟨{ building.entered with }, building.made, building.cwd, named, nopriv, ?_⟩,
        building.held⟩
      rw [posture]
      exact congrArg (list :: ·) building.filters

/-! ### Descriptors -/

theorem fold_fds_eq {step : World → Int → World}
    (each : ∀ world fd, step world fd = { world with fds := (step world fd).fds })
    (items : List Int) (world : World) :
    items.foldl step world = { world with fds := (items.foldl step world).fds } := by
  induction items generalizing world with
  | nil => rfl
  | cons item rest ih =>
      rw [List.foldl_cons, ih, each]

theorem close_unkept_eq (keep : List Int) (err : Int) (world : World) (fd : Int) :
    closeUnkept host keep err world fd =
      { world with fds := (closeUnkept host keep err world fd).fds } := by
  rw [closeUnkept]
  split_ifs
  · rfl
  · exact close_fd_eq fd world

theorem keep_only_eq (keep : List Int) (err : Int) (world : World) :
    keepOnly host keep err world =
      { world with fds := (keepOnly host keep err world).fds } := by
  rw [keepOnly, fold_fds_eq (close_unkept_eq keep err),
    fold_fds_eq fun world fd => set_cloexec_eq false fd world]

/-- What is left when the unwanted are closed was there, and is not one of them. -/
theorem close_unkept_left {keep : List Int} {err : Int} (numbers : List Int) {world : World}
    (allowed : world.refuses host.closeCall = false) (fd : OpenFd)
    (left : fd ∈ (numbers.foldl (closeUnkept host keep err) world).fds) :
    fd ∈ world.fds ∧ (fd.number ∈ numbers → fd.number < 3 ∨ fd.number = err ∨ fd.number ∈ keep) := by
  induction numbers generalizing world with
  | nil =>
      refine ⟨left, ?_⟩
      intro member
      cases member
  | cons number rest ih =>
      have still : (closeUnkept host keep err world number).refuses host.closeCall = false := by
        rw [close_unkept_eq]
        exact allowed
      obtain ⟨there, others⟩ := ih still left
      rw [closeUnkept] at there
      split_ifs at there with exempt
      · refine ⟨there, ?_⟩
        intro member
        rcases List.mem_cons.mp member with same | later
        · rwa [same]
        · exact others later
      · rw [closeFd, allowed] at there
        obtain ⟨old, apart⟩ := List.mem_filter.mp there
        refine ⟨old, ?_⟩
        intro member
        rcases List.mem_cons.mp member with same | later
        · exact absurd same (of_decide_eq_true apart)
        · exact others later

theorem close_unkept_kept {keep : List Int} {err : Int} (numbers : List Int) {world : World}
    (fd : OpenFd) (there : fd ∈ world.fds) (wanted : fd.number ∈ keep) :
    fd ∈ (numbers.foldl (closeUnkept host keep err) world).fds := by
  induction numbers generalizing world with
  | nil => exact there
  | cons number rest ih =>
      apply ih
      rw [closeUnkept]
      split_ifs with exempt
      · exact there
      · rw [closeFd]
        split_ifs
        · exact there
        · refine List.mem_filter.mpr ⟨there, decide_eq_true ?_⟩
          intro same
          exact exempt (.inr (.inr (same ▸ wanted)))

/-- Marking a descriptor marks it alone. -/
theorem set_cloexec_marks {on : Bool} {number : Int} {world : World} (fd : Int)
    (allowed : world.refuses host.fcntlCall = false) {other : OpenFd} (there : other ∈ world.fds)
    (which : other.number = number) :
    ∃ same ∈ (setCloexec host on fd world).fds, same.number = number ∧
      same.cloexec = if number = fd then on else other.cloexec := by
  refine ⟨if other.number = fd then { other with cloexec := on } else other, ?_, ?_⟩
  · rw [setCloexec, allowed]
    exact List.mem_map_of_mem there
  · split_ifs with marked plain plain
    · exact ⟨which, rfl⟩
    · exact absurd (which ▸ marked) plain
    · exact absurd (which ▸ plain) marked
    · exact ⟨which, rfl⟩

/-- Once those to keep are marked, each of them stays over an exec. -/
theorem marked_kept (keep : List Int) {world : World}
    (allowed : world.refuses host.fcntlCall = false) {other : OpenFd} (there : other ∈ world.fds)
    (wanted : other.number ∈ keep ∨ other.cloexec = false) :
    ∃ same ∈ (keep.foldl (fun world fd => setCloexec host false fd world) world).fds,
      same.number = other.number ∧ same.cloexec = false := by
  induction keep generalizing world other with
  | nil =>
      refine ⟨other, there, rfl, ?_⟩
      rcases wanted with never | plain
      · cases never
      · exact plain
  | cons fd rest ih =>
      obtain ⟨same, marked, number, cloexec⟩ := set_cloexec_marks fd allowed there rfl
      have still : (setCloexec host false fd world).refuses host.fcntlCall = false := by
        rw [set_cloexec_eq]
        exact allowed
      have next : same.number ∈ rest ∨ same.cloexec = false := by
        rw [cloexec, number]
        split_ifs with own
        · exact .inr rfl
        · rcases wanted with member | plain
          · rcases List.mem_cons.mp member with first | later
            · exact absurd first own
            · exact .inl later
          · exact .inr plain
      obtain ⟨last, found, number', plain⟩ := ih still marked next
      exact ⟨last, found, number'.trans number, plain⟩

theorem keep_only_keeps {keep : List Int} {err : Int} {world : World}
    (allowed : world.refuses host.fcntlCall = false) {other : OpenFd} (there : other ∈ world.fds)
    (wanted : other.number ∈ keep) :
    ∃ same ∈ (keepOnly host keep err world).fds, same.number = other.number ∧
      same.cloexec = false := by
  obtain ⟨same, marked, number, plain⟩ := marked_kept keep allowed there (.inl wanted)
  refine ⟨same, ?_, number, plain⟩
  rw [keepOnly]
  exact close_unkept_kept _ same marked (number ▸ wanted)

theorem keep_only_left {keep : List Int} {err : Int} {world : World}
    (allowed : world.refuses host.closeCall = false) {fd : OpenFd}
    (left : fd ∈ (keepOnly host keep err world).fds) :
    fd.number < 3 ∨ fd.number = err ∨ fd.number ∈ keep ∨ closeLimit host ≤ fd.number := by
  rw [keepOnly] at left
  have still : (keep.foldl (fun world fd => setCloexec host false fd world) world).refuses
      host.closeCall = false := by
    rw [fold_fds_eq fun world fd => set_cloexec_eq false fd world]
    exact allowed
  obtain ⟨_, exempt⟩ := close_unkept_left _ still fd left
  by_cases low : fd.number < 3
  · exact .inl low
  by_cases high : closeLimit host ≤ fd.number
  · exact .inr (.inr (.inr high))
  have numbered : fd.number ∈ (List.range (closeLimit host).toNat).map Int.ofNat := by
    refine List.mem_map.mpr ⟨fd.number.toNat, ?_, ?_⟩
    · rw [List.mem_range]
      omega
    · exact Int.toNat_of_nonneg (by omega)
  rcases exempt numbered with small | own | kept
  · exact .inl small
  · exact .inr (.inl own)
  · exact .inr (.inr (.inl kept))

/-! ## What the payload is given -/

/-- Neither closing nor marking descriptors is refused. -/
def Unhindered (host : Host) (world : World) : Prop :=
  world.refuses host.closeCall = false ∧ world.refuses host.fcntlCall = false

theorem Unhindered.before {world after : World} (unhindered : Unhindered host after)
    (same : after.filters = world.filters) : Unhindered host world := by
  rw [Unhindered, World.refuses, World.refuses, same] at unhindered
  exact unhindered

structure Confined (host : Host) (report : Int) (cell : Cell) (begun : World) (err : Int)
    (world : World) : Prop where
  enclosed : Enclosed host cell begun world
  /-- Where no filter stands in the way, no descriptor is left but those to keep, the standard
  ones, and those from the limit on. -/
  closed : Unhindered host world → ∀ fd ∈ world.fds, fd.number ≠ err ∧
    (fd.number < 3 ∨ fd.number ∈ cell.keepFds ∨ closeLimit host ≤ fd.number)
  /-- And every descriptor to keep is there. -/
  handed : Unhindered host world → ∀ fd ∈ begun.fds, fd.number ∈ cell.keepFds →
    fd.number ≠ report → ∃ same ∈ world.fds, same.number = fd.number

/-- The descriptors are those to keep, and the one for errors. -/
structure Kept (host : Host) (report : Int) (cell : Cell) (begun : World) (err : Int)
    (world : World) : Prop where
  enclosed : Enclosed host cell begun world
  left : Unhindered host world → ∀ fd ∈ world.fds,
    fd.number < 3 ∨ fd.number = err ∨ fd.number ∈ cell.keepFds ∨ closeLimit host ≤ fd.number
  handed : Unhindered host world → ∀ fd ∈ begun.fds, fd.number ∈ cell.keepFds →
    fd.number ≠ report → ∃ same ∈ world.fds, same.number = fd.number ∧ same.cloexec = false

theorem Enclosed.with_fds {world : World} (enclosed : Enclosed host cell begun world)
    (fds : List OpenFd) : Enclosed host cell begun { world with fds } :=
  { enclosed with entered := { enclosed.entered with } }

theorem keep_only_triple {err : Int} :
    Triple (fun world => Enclosed host cell begun world ∧ Held report begun world)
      (modify (keepOnly host cell.keepFds err))
      (fun _ => Kept host report cell begun err) Named := by
  apply Triple.modify
  intro world start
  obtain ⟨enclosed, held⟩ := start
  have same : (keepOnly host cell.keepFds err world).filters = world.filters := by
    rw [keep_only_eq]
  constructor
  · rw [keep_only_eq]
    exact enclosed.with_fds _
  · intro unhindered fd member
    exact keep_only_left (unhindered.before same).1 member
  · intro unhindered fd member wanted foreign
    obtain ⟨there, found, number⟩ := held fd member foreign
    rw [← number] at wanted ⊢
    exact keep_only_keeps (unhindered.before same).2 found wanted

/-- What is not for errors, of what is left. -/
theorem Kept.others {err : Int} {world : World} (kept : Kept host report cell begun err world)
    (unhindered : Unhindered host world) {fd : OpenFd} (member : fd ∈ world.fds)
    (apart : fd.number ≠ err) :
    fd.number < 3 ∨ fd.number ∈ cell.keepFds ∨ closeLimit host ≤ fd.number := by
  rcases kept.left unhindered fd member with low | own | wanted
  · exact .inl low
  · exact absurd own apart
  · exact .inr wanted

theorem call_triple {err : Int} (fresh : ∀ fd ∈ begun.fds, fd.number ≠ err) :
    Triple (Kept host report cell begun err) (modify (closeFd host err))
      (fun _ => Confined host report cell begun err) Named := by
  apply Triple.modify
  intro world kept
  have same : (closeFd host err world).filters = world.filters := by rw [close_fd_eq]
  constructor
  · rw [close_fd_eq]
    exact kept.enclosed.with_fds _
  · intro unhindered fd member
    have before := unhindered.before same
    rw [closeFd, before.1] at member
    obtain ⟨there, apart⟩ := List.mem_filter.mp member
    have other := of_decide_eq_true apart
    exact ⟨other, kept.others before there other⟩
  · intro unhindered fd member wanted foreign
    obtain ⟨there, found, number, _⟩ :=
      kept.handed (unhindered.before same) fd member wanted foreign
    exact close_fd_held (fresh fd member) ⟨there, found, number⟩

theorem mark_triple {err : Int} (fresh : ∀ fd ∈ begun.fds, fd.number ≠ err) :
    Triple (Kept host report cell begun err) (modify (setCloexec host true err))
      (fun _ world => Kept host report cell begun err world ∧
        (Unhindered host world → ∀ fd ∈ world.fds, fd.number = err → fd.cloexec = true)) Named := by
  apply Triple.modify
  intro world kept
  have same : (setCloexec host true err world).filters = world.filters := by rw [set_cloexec_eq]
  -- what is marked was there under its number
  have origin : Unhindered host world → ∀ fd ∈ (setCloexec host true err world).fds,
      ∃ old ∈ world.fds, fd.number = old.number ∧ (fd.number = err → fd.cloexec = true) := by
    intro before fd member
    rw [setCloexec, before.2] at member
    obtain ⟨old, found, rfl⟩ := List.mem_map.mp member
    refine ⟨old, found, ?_⟩
    split_ifs with own
    · exact ⟨rfl, fun _ => rfl⟩
    · exact ⟨rfl, fun named => absurd named own⟩
  refine ⟨⟨?_, ?_, ?_⟩, ?_⟩
  · rw [set_cloexec_eq]
    exact kept.enclosed.with_fds _
  · intro unhindered fd member
    obtain ⟨old, found, number, _⟩ := origin (unhindered.before same) fd member
    rw [number]
    exact kept.left (unhindered.before same) old found
  · intro unhindered fd member wanted foreign
    have before := unhindered.before same
    obtain ⟨there, found, number, plain⟩ := kept.handed before fd member wanted foreign
    obtain ⟨marked, found', number', cloexec⟩ := set_cloexec_marks err before.2 found rfl
    refine ⟨marked, found', number'.trans number, ?_⟩
    rw [cloexec, if_neg (number ▸ fresh fd member)]
    exact plain
  · intro unhindered fd member own
    obtain ⟨_, _, _, marked⟩ := origin (unhindered.before same) fd member
    exact marked own

theorem exec_triple {err : Int} (path : Bytes) (argv : List Bytes) (env : List (Bytes × Bytes))
    (fresh : ∀ fd ∈ begun.fds, fd.number ≠ err) :
    Triple (Kept host report cell begun err) (startPayload host err (.exec path argv env))
      (fun _ => Confined host report cell begun err) Named := by
  have to_exec : Triple
      (fun world => Kept host report cell begun err world ∧
        (Unhindered host world → ∀ fd ∈ world.fds, fd.number = err → fd.cloexec = true))
      (sys host sExec fun world => execute host path argv env world)
      (fun _ => Confined host report cell begun err) Named := by
    apply sys_triple (by decide)
    intro world start later executed
    obtain ⟨kept, marked⟩ := start
    rw [execute] at executed
    split at executed
    · cases executed
    · cases executed
      constructor
      · exact { kept.enclosed with entered := { kept.enclosed.entered with } }
      · intro unhindered fd member
        obtain ⟨there, survives⟩ := List.mem_filter.mp member
        rw [Bool.not_eq_true'] at survives
        have other : fd.number ≠ err := by
          intro own
          rw [marked unhindered fd there own] at survives
          cases survives
        exact ⟨other, kept.others unhindered there other⟩
      · intro unhindered fd member wanted foreign
        obtain ⟨there, found, number, plain⟩ := kept.handed unhindered fd member wanted foreign
        refine ⟨there, List.mem_filter.mpr ⟨found, ?_⟩, number⟩
        rw [plain]
        rfl
  have named : stepName sExec ≠ "unknown step" := by decide
  rw [startPayload]
  exact (mark_triple fresh).bind fun _ =>
    Triple.ite (fun _ => Triple.throw _ fun _ _ => named) fun _ => to_exec

theorem only_if_triple {asked : Bool} {action : Setup Unit} {kept : World → Prop}
    (triple : asked = true → Triple kept action (fun _ => kept) Named) :
    Triple kept (onlyIf asked action) (fun _ => kept) Named :=
  Triple.ite triple fun _ => Triple.pure _ fun _ holds => holds

theorem root_triple {err : Int} (payload : Payload) (fresh : ∀ fd ∈ begun.fds, fd.number ≠ err) :
    Triple (Ready host report begun err) (buildWorldAndRun host stage cell payload err)
      (fun _ => Confined host report cell begun err) Named := by
  have to_private : Triple (Ready host report begun err)
      (sys host sPrivate fun world => .ok { world with propagates := false })
      (fun _ => Building host report begun begun.cwd (Bare begun)) Named := by
    apply sys_triple (by decide)
    intro world ready later done
    cases done
    exact ⟨{ ready.entered with }, ready.held, ready.filters, rfl, ready.cwd,
      congrArg Table.mounts ready.mounts⟩
  have to_stage : Triple (Building host report begun begun.cwd (Bare begun))
      (mkdirs host sMkdir (components stage))
      (fun _ => Building host report begun begun.cwd (Bare begun)) Named :=
    mkdirs_triple _ (by decide) fun _ _ bare same => same.trans bare
  have to_old : Triple (Rooted host report cell begun (begun.place stage))
      (mkdirs host sMkdir (components (staged stage putOld)))
      (fun _ => Rooted host report cell begun (begun.place stage)) Named :=
    mkdirs_triple _ (by decide) sealed_kept
  have to_binds : Triple (Rooted host report cell begun (begun.place stage))
      (cell.binds.forM (bindInto host stage))
      (fun _ => Rooted host report cell begun (begun.place stage)) Named :=
    Triple.forM fun bind member => bind_into_triple bind (List.mem_append_left _ member)
  have to_payload : Triple (Kept host report cell begun err) (startPayload host err payload)
      (fun _ => Confined host report cell begun err) Named := by
    cases payload with
    | call => exact call_triple fresh
    | exec path argv env => exact exec_triple path argv env fresh
  exact to_private.bind fun _ => to_stage.bind fun _ => stage_triple.bind fun _ =>
    to_old.bind fun _ => to_binds.bind fun _ => (only_if_triple dev_into_triple).bind fun _ =>
      (only_if_triple proc_into_triple).bind fun _ => pivot_triple.bind fun _ =>
        hostname_triple.bind fun _ => nopriv_triple.bind fun _ => seccomp_triple.bind fun _ =>
          keep_only_triple.bind fun _ => to_payload

end Steps

/-! ## The theorem -/

section Main

variable {host : Host} {report err : Int} {stage : Bytes} {cell : Cell} {payload : Payload}
  {begun started world : World}

end Main

/-! ### A cell -/

def sampleHost : Host where
  uid := 1000
  gid := 1000
  fault := fun _ => none
  isDir := fun _ => true
  openMax := 8
  closeCall := 3
  fcntlCall := 72
  exec := fun _ _ _ _ => none

def sampleWorld : World where
  mounts := ⟨[⟨[], .host 0, [], false⟩], fun _ _ => true⟩
  cwd := []
  inHost := true
  hostPids := true
  groupsDenied := false
  gidMap := none
  uidMap := none
  propagates := true
  leaked := false
  hostname := none
  noNewPrivs := false
  filters := []
  fds := [⟨0, false⟩, ⟨1, false⟩, ⟨2, false⟩, ⟨3, true⟩, ⟨4, false⟩]
  calls := 0

def sampleStage : Bytes := [slash, 115]

/-- One directory, one descriptor, its own processes, and no `mount`. -/
def sampleCell : Cell :=
  { (Cell.new.bindRo (utf8 "/usr") (utf8 "/usr")).keepFd 3 with
    seccomp := .block [165], hostname := some (utf8 "cell"), mountProc := true }

end HorizonOs.Cells
