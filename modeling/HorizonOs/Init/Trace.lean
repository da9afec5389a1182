import HorizonOs.Init.Boot

/-!
# What a boot leaves behind

Which block devices a boot mounts writable, over init's own mounts and those of the plan, and
which device is the overlay's lower. A boot that wants Home and then finds no store has its
data partition mounted writable and goes on as Ghost.
-/

namespace HorizonOs.Init

open HorizonOs.Boot HorizonOs.Lib.Text HorizonOs.Lib.Words

set_option autoImplicit false

/-! ## The mounts of a boot -/

def blockMount : Step → Option Source
  | .mount source _ => if isPseudo source.fstype then none else some source
  | _ => none

/-- The block devices a prepared boot mounts, its own and the plan's. -/
def Machine.Prepared.mounts (p : Machine.Prepared) : List Source :=
  (p.performed ++ plan p.recipe).filterMap blockMount

def mountAt (place : Path) : Step → Option Source
  | .mount source target => if target = place then some source else none
  | _ => none

/-- What is mounted where an overlay of the steps has its lower. -/
def lowerOf (steps : List Step) : Step → List Source
  | .overlay lower _ _ _ => steps.filterMap (mountAt lower)
  | _ => []

def lowerSources (steps : List Step) : List Source := steps.flatMap (lowerOf steps)

def verityKey : List Char := "horizon.verity=".toList

/-- Ghost leaves no trace, Home writes to its own, and a verified boot never falls back. -/
structure LeavesNoTrace (m : Machine) (p : Machine.Prepared) : Prop where
  ghost : p.recipe.mode = .ghost → ∀ source ∈ p.mounts, source.flags.rdonly = true
  home : ∀ layer, p.recipe.mode = .home layer → ∃ part unlocked,
    m.storePart = some part ∧ p.unlocked = some unlocked ∧
      discover (Layout.new runPath).data (m.contents part.dev) = some unlocked.store ∧
      m.recoverMaster unlocked.store m.params = some unlocked.master ∧
      m.luksOpens unlocked.dev unlocked.master = true ∧
      ∀ source ∈ p.mounts, source.flags.rdonly = false →
        source.dev = part.dev ∨ source.dev = mapperPath homeMapper
  verity : (∃ tok ∈ splitWhitespace (m.cmdline.getD []), verityKey <+: tok) →
    ∃ verity : Machine.Verity, p.verity = some verity ∧
      verityKey ++ verity.root.toList ∈ splitWhitespace (m.cmdline.getD []) ∧
      m.verityOpens verity.data verity.hash verity.root = true ∧
      lowerSources (plan p.recipe) =
        [Source.readOnly ⟨mapperPath baseMapper, m.params.basefs, {}⟩]

/-- The boots that want Home, mount the data partition for it, and find no one store there. -/
structure FallsBack (m : Machine) : Prop where
  early : m.succeed [] (Machine.mountProc :: earlyMounts) = true
  base : ∃ poll ≤ m.polls, ∃ dev, m.present (.base poll) m.params.base = some dev ∧
    (∀ earlier < poll, m.present (.base earlier) m.params.base = none) ∧
    ∀ root, m.params.verity = some root → ∃ hash,
      m.present .verity m.params.verityDev = some hash ∧ m.verityOpens dev hash root = true
  wanted : m.params.mode ≠ .ghost ∧ (m.present .home m.params.home).isSome = true
  data : ∃ dev, m.present .data m.params.data = some dev ∧
    m.succeed (Machine.mountProc :: earlyMounts)
      [.mkdir (Layout.new runPath).data, .mount ⟨dev, m.params.datafs, {}⟩ (Layout.new runPath).data]
        = true ∧
    discover (Layout.new runPath).data (m.contents dev) = none
  block : isPseudo m.params.datafs = false

/-! ## The token -/

theorem apply_setting_verity (p : Params) (tok : List Char) (table : List Setting)
    (known : ∀ setting ∈ table, setting.1 = "horizon.verity=" ∧
        (∀ q value, (setting.2 q value).verity = some (String.ofList value)) ∨
      ∀ q value, (setting.2 q value).verity = q.verity) :
    ∀ after, applySetting p tok table = some after →
      after.verity = p.verity ∨ ∃ value, tok = verityKey ++ value ∧
        after.verity = some (String.ofList value) := by
  induction table with
  | nil =>
      intro after applied
      cases applied
  | cons setting rest ih =>
      obtain ⟨first, others⟩ := List.forall_mem_cons.mp known
      intro after applied
      obtain ⟨key, set⟩ := setting
      rw [applySetting] at applied
      cases found : stripPrefix key.toList tok with
      | none =>
          simp only [found] at applied
          exact ih others after applied
      | some value =>
          simp only [found, Option.some.injEq] at applied
          rw [← applied]
          rcases first with ⟨same, sets⟩ | keeps
          · have whole := strip_prefix_some found
            have named : key.toList = verityKey := congrArg String.toList same
            rw [named] at whole
            exact .inr ⟨value, whole, sets p value⟩
          · exact .inl (keeps p value)

theorem settings_verity : ∀ setting ∈ settings ++ lateSettings,
    setting.1 = "horizon.verity=" ∧
        (∀ (q : Params) value, (setting.2 q value).verity = some (String.ofList value)) ∨
      ∀ (q : Params) value, (setting.2 q value).verity = q.verity := by
  intro setting member
  simp only [settings, lateSettings, List.cons_append, List.nil_append, List.mem_cons,
    List.not_mem_nil, or_false] at member
  rcases member with rfl | rfl | rfl | rfl | rfl | rfl | rfl | rfl | rfl | rfl | rfl
  · exact .inr fun _ _ => rfl
  · exact .inr fun _ _ => rfl
  · exact .inr fun _ _ => rfl
  · exact .inr fun _ _ => rfl
  · exact .inr fun _ _ => rfl
  · exact .inr fun _ _ => rfl
  · exact .inl ⟨rfl, fun _ _ => rfl⟩
  · exact .inr fun _ _ => rfl
  · exact .inr fun _ _ => rfl
  · exact .inr fun _ _ => rfl
  · exact .inr fun _ _ => rfl

/-- A token sets the root of the hash tree only as its own value. -/
theorem apply_token_verity (p : Params) (tok : List Char) :
    (applyToken p tok).verity = p.verity ∨ ∃ value, tok = verityKey ++ value ∧
      (applyToken p tok).verity = some (String.ofList value) := by
  rw [applyToken]
  cases first : applySetting p tok settings with
  | some after =>
      apply apply_setting_verity p tok settings _ after first
      exact fun setting member => settings_verity setting (List.mem_append_left _ member)
  | none =>
      simp only
      split_ifs
      · exact .inl rfl
      · cases late : applySetting p tok lateSettings with
        | none => exact .inl rfl
        | some after =>
            apply apply_setting_verity p tok lateSettings _ after late
            exact fun setting member => settings_verity setting (List.mem_append_right _ member)

theorem apply_token_verity_hit (p : Params) (value : List Char) :
    (applyToken p (verityKey ++ value)).verity = some (String.ofList value) := by
  have hit := apply_token_hit p "horizon.verity="
    (fun p v => { p with verity := some (String.ofList v) }) value (settings.take 6)
    (settings.drop 7) rfl (by decide)
  exact congrArg Params.verity hit

theorem fold_verity (p : Params) (tokens : List (List Char)) :
    ((tokens.foldl applyToken p).verity = p.verity ∧ ∀ tok ∈ tokens, ¬verityKey <+: tok) ∨
      ∃ value, verityKey ++ value ∈ tokens ∧
        (tokens.foldl applyToken p).verity = some (String.ofList value) := by
  induction tokens generalizing p with
  | nil => exact .inl ⟨rfl, nofun⟩
  | cons tok tokens ih =>
      rw [List.foldl_cons]
      rcases ih (applyToken p tok) with ⟨kept, none⟩ | ⟨value, member, set⟩
      · by_cases key : verityKey <+: tok
        · obtain ⟨value, rfl⟩ := key
          refine .inr ⟨value, List.mem_cons_self, ?_⟩
          rw [kept, apply_token_verity_hit]
        · refine .inl ⟨?_, List.forall_mem_cons.mpr ⟨key, none⟩⟩
          rw [kept]
          rcases apply_token_verity p tok with same | ⟨value, whole, _⟩
          · exact same
          · exact absurd ⟨value, whole.symm⟩ key
      · exact .inr ⟨value, List.mem_cons_of_mem _ member, set⟩

/-- A command line with the token has one of its values for the root. -/
theorem verity_of_token (cmdline : List Char)
    (carries : ∃ tok ∈ splitWhitespace cmdline, verityKey <+: tok) :
    ∃ root, (parseCmdline cmdline).verity = some root ∧
      verityKey ++ root.toList ∈ splitWhitespace cmdline := by
  obtain ⟨tok, member, key⟩ := carries
  rcases fold_verity {} (splitWhitespace cmdline) with ⟨_, none⟩ | ⟨value, found, set⟩
  · exact absurd key (none tok member)
  · refine ⟨String.ofList value, set, ?_⟩
    rw [String.toList_ofList]
    exact found

/-! ## The base -/

section Run

variable {m : Machine} {p : Machine.Prepared}

theorem find_some_range {α : Type} (f : Nat → Option α) (limit : Nat) (value : α) :
    (List.range (limit + 1)).findSome? f = some value ↔
      ∃ poll ≤ limit, f poll = some value ∧ ∀ earlier < poll, f earlier = none := by
  rw [List.findSome?_eq_some_iff]
  constructor
  · rintro ⟨before, poll, after, split, found, none⟩
    have position : (List.range (limit + 1))[before.length]? = some poll := by
      rw [split, List.getElem?_append_right (Nat.le_refl _), Nat.sub_self]
      rfl
    obtain ⟨bound, same⟩ := List.getElem?_eq_some_iff.mp position
    rw [List.getElem_range] at same
    rw [List.length_range] at bound
    refine ⟨poll, by omega, found, fun earlier less => none earlier ?_⟩
    have prefix_range : before = List.range before.length := by
      have taken := congrArg (List.take before.length) split
      rw [List.take_left, List.take_range, Nat.min_eq_left (Nat.le_of_lt bound)] at taken
      exact taken.symm
    rw [prefix_range, List.mem_range]
    omega
  · rintro ⟨poll, bound, found, none⟩
    refine ⟨List.range poll, poll, (List.range (limit - poll)).map (poll + 1 + ·), ?_, found, ?_⟩
    · have split : limit + 1 = poll + 1 + (limit - poll) := by omega
      rw [split, List.range_add, List.range_succ, List.append_assoc]
      rfl
    · intro earlier member
      exact none earlier (List.mem_range.mp member)

theorem resolve_some {moment : Moment} {spec : Spec} {fstype : String} {source : Source} :
    m.resolve moment spec fstype = some source ↔
      ∃ dev, m.present moment spec = some dev ∧ source = ⟨dev, fstype, {}⟩ := by
  rw [Machine.resolve, Option.map_eq_some_iff]
  constructor
  · rintro ⟨dev, found, rfl⟩
    exact ⟨dev, found, rfl⟩
  · rintro ⟨dev, found, rfl⟩
    exact ⟨dev, found, rfl⟩

theorem resolve_isSome (moment : Moment) (spec : Spec) (fstype : String) :
    (m.resolve moment spec fstype).isSome = (m.present moment spec).isSome :=
  Option.isSome_map

/-- The base is mounted read-only, and where there is a root it is the device opened with it. -/
theorem open_base_some {base : Source} {verity : Option Machine.Verity}
    (opened : m.openBase = some (base, verity)) :
    base.flags.rdonly = true ∧ ∀ root, m.params.verity = some root →
      base = Source.readOnly ⟨mapperPath baseMapper, m.params.basefs, {}⟩ ∧
        ∃ data hash, verity = some ⟨data, hash, root⟩ ∧ m.verityOpens data hash root = true := by
  rw [Machine.openBase, Option.bind_eq_bind, Option.bind_eq_some_iff] at opened
  obtain ⟨raw, resolved, rest⟩ := opened
  cases root : m.params.verity with
  | none =>
      simp only [root, Option.pure_def, Option.some.injEq, Prod.mk.injEq] at rest
      obtain ⟨rfl, _⟩ := rest
      obtain ⟨source, _, rfl⟩ := Option.map_eq_some_iff.mp resolved
      exact ⟨rfl, nofun⟩
  | some anchor =>
      simp only [root, Option.bind_eq_some_iff] at rest
      obtain ⟨hash, _, checked⟩ := rest
      split_ifs at checked with opens
      simp only [Option.pure_def, Option.some.injEq, Prod.mk.injEq] at checked
      obtain ⟨rfl, rfl⟩ := checked
      refine ⟨rfl, ?_⟩
      rintro _ ⟨⟩
      exact ⟨rfl, raw.dev, hash.dev, rfl, opens⟩

/-- The base opens where it is polled for in time and its verified device opens. -/
theorem open_base_isSome : m.openBase.isSome = true ↔
    ∃ poll ≤ m.polls, ∃ dev, m.present (.base poll) m.params.base = some dev ∧
      (∀ earlier < poll, m.present (.base earlier) m.params.base = none) ∧
      ∀ root, m.params.verity = some root → ∃ hash,
        m.present .verity m.params.verityDev = some hash ∧ m.verityOpens dev hash root = true := by
  constructor
  · intro opens
    obtain ⟨⟨base, verity⟩, opened⟩ := Option.isSome_iff_exists.mp opens
    rw [Machine.openBase, Option.bind_eq_bind, Option.bind_eq_some_iff] at opened
    obtain ⟨raw, resolved, rest⟩ := opened
    obtain ⟨source, polled, rfl⟩ := Option.map_eq_some_iff.mp resolved
    obtain ⟨poll, bound, answered, before⟩ := (find_some_range _ _ _).mp polled
    obtain ⟨dev, there, rfl⟩ := resolve_some.mp answered
    refine ⟨poll, bound, dev, there, fun earlier less => ?_, fun root anchored => ?_⟩
    · exact Option.map_eq_none_iff.mp (before earlier less)
    · simp only [anchored, Option.bind_eq_some_iff] at rest
      obtain ⟨hash, hashed, checked⟩ := rest
      obtain ⟨hash_dev, found, rfl⟩ := resolve_some.mp hashed
      split_ifs at checked with opens
      exact ⟨hash_dev, found, opens⟩
  · rintro ⟨poll, bound, dev, there, before, anchored⟩
    have resolved : m.resolveBase = some (Source.readOnly ⟨dev, m.params.basefs, {}⟩) := by
      rw [Machine.resolveBase, Option.map_eq_some_iff]
      refine ⟨_, (find_some_range _ _ _).mpr ⟨poll, bound, ?_, fun earlier less => ?_⟩, rfl⟩
      · exact resolve_some.mpr ⟨dev, there, rfl⟩
      · exact Option.map_eq_none_iff.mpr (before earlier less)
    rw [Machine.openBase, resolved, Option.bind_eq_bind, Option.bind_some]
    cases root : m.params.verity with
    | none => rfl
    | some anchor =>
        obtain ⟨hash, found, opens⟩ := anchored anchor root
        have hashed : m.resolve .verity m.params.verityDev "" = some ⟨hash, "", {}⟩ :=
          resolve_some.mpr ⟨hash, found, rfl⟩
        have opens' : m.verityOpens
            (Source.readOnly ⟨dev, m.params.basefs, {}⟩).dev hash anchor = true := opens
        simp only [hashed, Option.bind_some, if_pos opens']
        rfl

/-! ## What is mounted -/

theorem execute_some {before steps performed : List Step} :
    m.execute before steps = some performed ↔
      m.succeed before steps = true ∧ performed = before ++ steps := by
  rw [Machine.execute]
  split_ifs with ends
  · rw [Option.some.injEq, eq_comm]
    exact (and_iff_right ends).symm
  · constructor
    · exact nofun
    · exact fun both => absurd both.1 ends

theorem early_block : (Machine.mountProc :: earlyMounts).filterMap blockMount = [] := by
  decide

theorem store_block (part : Source) :
    (m.storeSteps part).filterMap blockMount =
      if isPseudo part.fstype then [] else [m.storeSource part] := by
  have fstype : (m.storeSource part).fstype = part.fstype := by
    rw [Machine.storeSource]
    split_ifs <;> rfl
  rw [Machine.storeSteps, List.filterMap_cons, List.filterMap_cons]
  simp only [blockMount, fstype, List.filterMap_nil]
  split_ifs <;> rfl

/-- The plan mounts the base and the layer, and no other block device. -/
theorem plan_block {r : Recipe} {source : Source}
    (mounted : source ∈ (plan r).filterMap blockMount) :
    source = r.base.readOnly ∨ source = r.overSource ∧ isPseudo source.fstype = false := by
  have of_mount : ∀ {step : Step}, blockMount step = some source →
      (∃ target, step = .mount source target) ∧ isPseudo source.fstype = false := by
    intro step is
    cases step with
    | mount other target =>
        simp only [blockMount] at is
        split_ifs at is with pseudo
        cases is
        exact ⟨⟨target, rfl⟩, Bool.not_eq_true _ ▸ pseudo⟩
    | mkdir | overlay | bind | move | switchRoot => cases is
  obtain ⟨step, member, is⟩ := List.mem_filterMap.mp mounted
  obtain ⟨⟨target, rfl⟩, block⟩ := of_mount is
  simp only [plan, List.mem_append, earlyMounts, baseSteps, layerSteps, rootSteps, kernelMoves,
    moveSteps, carrySteps, List.mem_flatMap, List.flatMap_cons, List.flatMap_nil, List.mem_cons,
    List.not_mem_nil, or_false, Step.mount.injEq, reduceCtorEq, false_or, and_false,
    exists_false] at member
  rcases member with (early | base) | layer
  · rcases early with ⟨rfl, _⟩ | ⟨rfl, _⟩ | ⟨rfl, _⟩
    · exact absurd block (by decide)
    · exact absurd block (by decide)
    · exact absurd block (by decide)
  · exact .inl base.1
  · exact .inr ⟨layer.1, block⟩

theorem carries_mount_nothing (place root : Path) (carry : List Carry) :
    (carry.flatMap (carrySteps root)).filterMap (mountAt place) = [] := by
  induction carry with
  | nil => rfl
  | cons c carry ih =>
      rw [List.flatMap_cons, List.filterMap_append, ih, List.append_nil]
      rfl

/-- At the overlay's lower is what the recipe gives for the base. -/
theorem mounted_at_lower (r : Recipe) (scratch : r.scratch = runPath) :
    (plan r).filterMap (mountAt (Layout.new r.scratch).lower) = [r.base.readOnly] := by
  have dev : Path.ofNames true ["dev"] ≠ (Layout.new runPath).lower := by decide
  have proc : Path.ofNames true ["proc"] ≠ (Layout.new runPath).lower := by decide
  have sys : Path.ofNames true ["sys"] ≠ (Layout.new runPath).lower := by decide
  have layer : (Layout.new runPath).«over» ≠ (Layout.new runPath).lower := by decide
  simp only [plan, List.filterMap_append, carries_mount_nothing, earlyMounts, baseSteps, layerSteps,
    rootSteps, kernelMoves, moveSteps, List.flatMap_cons, List.flatMap_nil, List.cons_append,
    List.nil_append, List.filterMap_cons, List.filterMap_nil, mountAt, scratch, dev, proc, sys, layer,
    if_false, if_true]

theorem carries_overlay_nothing (steps : List Step) (root : Path) (carry : List Carry) :
    (carry.flatMap (carrySteps root)).flatMap (lowerOf steps) = [] := by
  induction carry with
  | nil => rfl
  | cons c carry ih =>
      rw [List.flatMap_cons, List.flatMap_append, ih, List.append_nil]
      rfl

theorem lower_sources (r : Recipe) (scratch : r.scratch = runPath) :
    lowerSources (plan r) = [r.base.readOnly] := by
  have only : ∀ steps : List Step, (plan r).flatMap (lowerOf steps) =
      steps.filterMap (mountAt (Layout.new r.scratch).lower) := by
    intro steps
    simp only [plan, List.flatMap_append, carries_overlay_nothing, earlyMounts, baseSteps,
      layerSteps, rootSteps, kernelMoves, moveSteps, List.flatMap_cons, List.flatMap_nil, lowerOf,
      List.nil_append, List.append_nil]
  rw [lowerSources, only, mounted_at_lower r scratch]

/-! ## What a boot hands over -/

/-- The ways a boot gets to its recipe. -/
theorem prepare_cases (prepared : m.prepare = some p) :
    m.succeed [] (Machine.mountProc :: earlyMounts) = true ∧
      m.openBase = some (p.recipe.base, p.verity) ∧ p.recipe.scratch = runPath ∧
      (m.storePart = none ∧ p.recipe.mode = .ghost ∧
          p.performed = Machine.mountProc :: earlyMounts ∨
        ∃ part, m.storePart = some part ∧
          m.succeed (Machine.mountProc :: earlyMounts) (m.storeSteps part) = true ∧
          p.performed = Machine.mountProc :: earlyMounts ++ m.storeSteps part ∧
          (discover (Layout.new runPath).data (m.contents part.dev) = none ∧
              p.recipe.mode = .ghost ∨
            ∃ store, discover (Layout.new runPath).data (m.contents part.dev) = some store ∧
              (m.wantHome = false ∧ p.recipe.mode = .ghost ∨
                m.wantHome = true ∧ ∃ unlocked, m.openHome store = some (p.recipe.mode, unlocked) ∧
                  p.unlocked = some unlocked))) := by
  rw [Machine.prepare, Option.bind_eq_bind, Option.bind_eq_some_iff] at prepared
  obtain ⟨early, began, rest⟩ := prepared
  obtain ⟨succeeded, rfl⟩ := execute_some.mp began
  rw [Option.bind_eq_bind, Option.bind_eq_some_iff] at rest
  obtain ⟨⟨base, verity⟩, opened, rest⟩ := rest
  cases store_part : m.storePart with
  | none =>
      simp only [store_part, Option.pure_def, Option.some.injEq] at rest
      subst rest
      exact ⟨succeeded, opened, rfl, .inl ⟨rfl, rfl, rfl⟩⟩
  | some part =>
      simp only [store_part, Machine.openStore, Option.bind_eq_bind, Option.bind_eq_some_iff] at rest
      obtain ⟨performed, mounted, rest⟩ := rest
      obtain ⟨succeeded', rfl⟩ := execute_some.mp mounted
      cases found : discover (Layout.new runPath).data (m.contents part.dev) with
      | none =>
          simp only [found, Option.pure_def, Option.some.injEq] at rest
          subst rest
          exact ⟨succeeded, opened, rfl, .inr ⟨part, rfl, succeeded', rfl, .inl ⟨found, rfl⟩⟩⟩
      | some store =>
          simp only [found] at rest
          split_ifs at rest with wanted
          · obtain ⟨⟨mode, unlocked⟩, opened', rest⟩ := Option.bind_eq_some_iff.mp rest
            cases rest
            exact ⟨succeeded, opened, rfl, .inr ⟨part, rfl, succeeded', rfl,
              .inr ⟨store, found, .inr ⟨wanted, unlocked, opened', rfl⟩⟩⟩⟩
          · cases rest
            exact ⟨succeeded, opened, rfl, .inr ⟨part, rfl, succeeded', rfl,
              .inr ⟨store, found, .inl ⟨Bool.not_eq_true _ ▸ wanted, rfl⟩⟩⟩⟩

theorem open_home_some {store : Path} {mode : Mode} {unlocked : Machine.Unlocked}
    (opened : m.openHome store = some (mode, unlocked)) :
    mode = .home ⟨mapperPath homeMapper, m.params.homefs, {}⟩ ∧ unlocked.store = store ∧
      m.recoverMaster store m.params = some unlocked.master ∧
      m.luksOpens unlocked.dev unlocked.master = true := by
  rw [Machine.openHome, Option.bind_eq_bind, Option.bind_eq_some_iff] at opened
  obtain ⟨master, recovered, rest⟩ := opened
  rw [Option.bind_eq_bind, Option.bind_eq_some_iff] at rest
  obtain ⟨home, _, rest⟩ := rest
  split_ifs at rest with opens
  cases rest
  exact ⟨rfl, rfl, recovered, opens⟩

theorem want_home_iff : m.wantHome = true ↔ m.params.mode ≠ .ghost ∧
    (m.present .data m.params.data).isSome = true ∧
      (m.present .home m.params.home).isSome = true := by
  rw [Machine.wantHome, homeWanted, Machine.storePart, Machine.homeDev, resolve_isSome,
    resolve_isSome, Bool.and_eq_true, Bool.and_eq_true, decide_eq_true_iff, and_assoc]

/-- Of the boot's own mounts only the store's partition can be writable. -/
theorem performed_block {part : Source} {source : Source}
    (mounted : source ∈ (Machine.mountProc :: earlyMounts ++ m.storeSteps part).filterMap blockMount) :
    source = m.storeSource part ∧ isPseudo part.fstype = false := by
  rw [List.filterMap_append, early_block, List.nil_append, store_block] at mounted
  split_ifs at mounted with pseudo
  · cases mounted
  · exact ⟨List.mem_singleton.mp mounted, Bool.not_eq_true _ ▸ pseudo⟩

theorem prepared_verity (prepared : m.prepare = some p) :
    (∃ tok ∈ splitWhitespace (m.cmdline.getD []), verityKey <+: tok) →
      ∃ verity : Machine.Verity, p.verity = some verity ∧
        verityKey ++ verity.root.toList ∈ splitWhitespace (m.cmdline.getD []) ∧
        m.verityOpens verity.data verity.hash verity.root = true ∧
        lowerSources (plan p.recipe) =
          [Source.readOnly ⟨mapperPath baseMapper, m.params.basefs, {}⟩] := by
  intro carries
  obtain ⟨_, opened, scratch, _⟩ := prepare_cases prepared
  obtain ⟨root, anchored, member⟩ := verity_of_token _ carries
  obtain ⟨base, data, hash, verity, opens⟩ := (open_base_some opened).2 root anchored
  refine ⟨⟨data, hash, root⟩, verity, member, opens, ?_⟩
  rw [lower_sources p.recipe scratch, base]
  rfl

/-- The plan of a Ghost recipe mounts no block device but the base. -/
theorem ghost_plan_block (ghost : p.recipe.mode = .ghost) {source : Source}
    (mounted : source ∈ (plan p.recipe).filterMap blockMount) : source.flags.rdonly = true := by
  rcases plan_block mounted with rfl | ⟨rfl, block⟩
  · rfl
  · rw [Recipe.overSource, ghost] at block
    exact absurd block (by decide)

theorem prepared_ghost (prepared : m.prepare = some p) (stays : ¬FallsBack m)
    (ghost : p.recipe.mode = .ghost) : ∀ source ∈ p.mounts, source.flags.rdonly = true := by
  obtain ⟨early, opened, _, rest⟩ := prepare_cases prepared
  intro source mounted
  rw [Machine.Prepared.mounts, List.filterMap_append] at mounted
  rcases List.mem_append.mp mounted with own | planned
  · rcases rest with ⟨_, _, performed⟩ | ⟨part, store_part, succeeded, performed, found⟩
    · rw [performed, early_block] at own
      cases own
    · rw [performed] at own
      obtain ⟨rfl, block⟩ := performed_block own
      obtain ⟨dev, there, rfl⟩ := resolve_some.mp store_part
      rw [Machine.storeSource]
      split_ifs with wanted
      · -- Home was wanted, and it is Ghost: nothing can have been found on the partition.
        exfalso
        obtain ⟨choice, _, home⟩ := want_home_iff.mp wanted
        rcases found with ⟨none, _⟩ | ⟨store, _, ⟨unwanted, _⟩ | ⟨_, unlocked, opens, _⟩⟩
        · refine stays ⟨early, ?_, ⟨choice, home⟩, ⟨dev, there, ?_, none⟩, block⟩
          · exact open_base_isSome.mp (Option.isSome_iff_exists.mpr ⟨_, opened⟩)
          · rw [Machine.storeSteps, Machine.storeSource, if_pos wanted] at succeeded
            exact succeeded
        · rw [wanted] at unwanted
          cases unwanted
        · have layer := (open_home_some opens).1
          rw [ghost] at layer
          cases layer
      · rfl
  · exact ghost_plan_block ghost planned

theorem prepared_home (prepared : m.prepare = some p) (layer : Source)
    (home : p.recipe.mode = .home layer) : ∃ part unlocked,
    m.storePart = some part ∧ p.unlocked = some unlocked ∧
      discover (Layout.new runPath).data (m.contents part.dev) = some unlocked.store ∧
      m.recoverMaster unlocked.store m.params = some unlocked.master ∧
      m.luksOpens unlocked.dev unlocked.master = true ∧
      ∀ source ∈ p.mounts, source.flags.rdonly = false →
        source.dev = part.dev ∨ source.dev = mapperPath homeMapper := by
  obtain ⟨_, opened, _, rest⟩ := prepare_cases prepared
  rcases rest with ⟨_, ghost, _⟩ | ⟨part, store_part, _, performed, found⟩
  · rw [home] at ghost
    cases ghost
  rcases found with ⟨_, ghost⟩ | ⟨store, there, ⟨_, ghost⟩ | ⟨_, unlocked, opens, handed⟩⟩
  · rw [home] at ghost
    cases ghost
  · rw [home] at ghost
    cases ghost
  obtain ⟨mapper, same, recovered, opens'⟩ := open_home_some opens
  refine ⟨part, unlocked, store_part, handed, same ▸ there, same ▸ recovered, opens', ?_⟩
  intro source mounted writable
  rw [Machine.Prepared.mounts, List.filterMap_append] at mounted
  rcases List.mem_append.mp mounted with own | planned
  · rw [performed] at own
    obtain ⟨rfl, _⟩ := performed_block own
    left
    rw [Machine.storeSource]
    split_ifs
    rfl
  · rcases plan_block planned with rfl | ⟨rfl, _⟩
    · cases writable
    · right
      rw [Recipe.overSource, mapper]

/-- A boot that falls back hands a Ghost recipe over behind a partition mounted writable. -/
theorem falls_back_prepares (falls : FallsBack m) : ∃ p, m.prepare = some p ∧
    p.recipe.mode = .ghost ∧ ∃ source ∈ p.mounts, source.flags.rdonly = false := by
  obtain ⟨early, base, ⟨choice, home⟩, ⟨dev, there, succeeded, none⟩, block⟩ := falls
  obtain ⟨⟨opened, verity⟩, open_base⟩ := Option.isSome_iff_exists.mp (open_base_isSome.mpr base)
  have store_part : m.storePart = some ⟨dev, m.params.datafs, {}⟩ :=
    resolve_some.mpr ⟨dev, there, rfl⟩
  have wanted : m.wantHome = true :=
    want_home_iff.mpr ⟨choice, Option.isSome_iff_exists.mpr ⟨dev, there⟩, home⟩
  have source : m.storeSource ⟨dev, m.params.datafs, {}⟩ = ⟨dev, m.params.datafs, {}⟩ := by
    rw [Machine.storeSource, if_pos wanted]
  have began : m.execute [] (Machine.mountProc :: earlyMounts) =
      some (Machine.mountProc :: earlyMounts) := execute_some.mpr ⟨early, rfl⟩
  have mounted : m.execute (Machine.mountProc :: earlyMounts)
      (m.storeSteps ⟨dev, m.params.datafs, {}⟩) =
        some (Machine.mountProc :: earlyMounts ++ m.storeSteps ⟨dev, m.params.datafs, {}⟩) := by
    apply execute_some.mpr
    rw [Machine.storeSteps, source]
    exact ⟨succeeded, rfl⟩
  refine ⟨⟨Machine.mountProc :: earlyMounts ++ m.storeSteps ⟨dev, m.params.datafs, {}⟩, verity,
    Option.none, ⟨runPath, opened, .ghost, [], m.params.init, m.params.initArgs⟩⟩, ?_, rfl, ?_⟩
  · rw [Machine.prepare, began, open_base]
    simp only [Option.bind_eq_bind, Option.bind_some, store_part, Machine.openStore, mounted, none,
      Option.pure_def]
  · refine ⟨⟨dev, m.params.datafs, {}⟩, ?_, rfl⟩
    rw [Machine.Prepared.mounts, List.filterMap_append, List.filterMap_append, store_block,
      if_neg (Bool.not_eq_true _ ▸ block), source]
    simp

end Run

/-! ## The law -/

/-- Every boot keeps it but those that want Home and find no one store on the partition they
have mounted for it. -/
theorem leaves_no_trace_iff (m : Machine) :
    (∀ p, m.prepare = some p → LeavesNoTrace m p) ↔ ¬FallsBack m := by
  constructor
  · intro keeps falls
    obtain ⟨p, prepared, ghost, source, mounted, writable⟩ := falls_back_prepares falls
    have rdonly := (keeps p prepared).ghost ghost source mounted
    rw [writable] at rdonly
    cases rdonly
  · intro stays p prepared
    exact ⟨prepared_ghost prepared stays, prepared_home prepared, prepared_verity prepared⟩

/-- A Key with all its partitions, and no store yet on the one for it. -/
def emptyKey : Machine where
  cmdline := some "quiet".toList
  present moment _ :=
    match moment with
    | .base _ => some (.ofNames true ["dev", "vda2"])
    | .verity => none
    | .data => some (.ofNames true ["dev", "vda3"])
    | .home => some (.ofNames true ["dev", "vda4"])
  polls := 0
  performs _ _ := true
  verityOpens _ _ _ := true
  contents _ := ⟨⟨false, false⟩, some []⟩
  recoverMaster _ _ := none
  luksOpens _ _ := false

theorem empty_key_leaves_trace :
    ¬∀ p, emptyKey.prepare = some p → LeavesNoTrace emptyKey p := by
  intro keeps
  have left : (emptyKey.prepare.map fun p => decide (p.recipe.mode = .ghost) &&
      p.mounts.any fun source => !source.flags.rdonly) = some true := by
    decide
  obtain ⟨p, prepared, traces⟩ := Option.map_eq_some_iff.mp left
  rw [Bool.and_eq_true, decide_eq_true_iff, List.any_eq_true] at traces
  obtain ⟨ghost, source, mounted, writable⟩ := traces
  have rdonly := (keeps p prepared).ghost ghost source mounted
  rw [rdonly] at writable
  cases writable

end HorizonOs.Init
