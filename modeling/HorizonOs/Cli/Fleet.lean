import HorizonOs.Cli.Commands

/-!
# The devices of one identity

Each device takes snapshots, collects what its refs do not lead to, and syncs with any
other, one command at a time and however the calls and the writes of a command fail.
Every ref of every device names a history that reads to its beginning, and each of its
generations restores there as the tree it was taken of. The invariant remembers the
generations that were ever committed: `Chronicle`, each on top of older ones.
-/

namespace HorizonOs.Cli

open HorizonOs.Lib.ByteCodec HorizonOs.Lib.Text HorizonOs.Lib.Runs HorizonOs.Lib.Search
open HorizonOs.Lifestream HorizonOs.Constellation

set_option autoImplicit false

/-! ## Deeds -/

abbrev Fleet (ι : Type) := ι → Device

inductive Deed (ι : Type) where
  | snapshot (device : ι) (dir : HostTree) (label : String) (timeUnix : UInt64)
  | collect (device : ι)
  | sync (source dest : ι) (troubles : List (Option Trouble))
  /-- How the coming writes of a disk will turn out. -/
  | outlook (device : ι) (faults : List (Option Fault))

section Steps

variable {ι : Type} [DecidableEq ι]

def fleetStep (ls : Lifestream) (fleet : Fleet ι) : Deed ι → Fleet ι
  | .snapshot device dir label timeUnix =>
      Function.update fleet device (finalState (snapshot ls dir label timeUnix (fleet device)))
  | .collect device => Function.update fleet device (finalState (collect ls (fleet device)))
  | .sync source dest troubles =>
      Function.update fleet dest
        (finalState (troubledSync ls (fleet source) (fleet dest) troubles)).1.devices.2
  | .outlook device faults => Function.update fleet device { fleet device with faults }

end Steps

/-- What is snapshotted is a tree that the codec can say, under a label that it can. -/
def Deed.Proper {ι : Type} : Deed ι → Prop
  | .snapshot _ dir label _ => dir.Proper ∧ dir.Faithful ∧ (utf8 label).length < 2 ^ 32
  | _ => True

/-- Some disk was offered the plaintext. -/
def Offered {ι : Type} (fleet : Fleet ι) (plaintext : Bytes) : Prop :=
  ∃ device, plaintext ∈ (fleet device).written

/-- No two plaintexts ever offered to a disk share an address. -/
def Apart {ι : Type} (ls : Lifestream) (fleet : Fleet ι) : Prop :=
  ∀ left right, Offered fleet left → Offered fleet right →
    ls.store.idOf left = ls.store.idOf right → left = right

/-- A disk with nothing on it, all of whose files will read. -/
structure Blank (device : Device) : Prop where
  objects : device.objects = ∅
  refs : device.refs = ∅
  readable : device.Readable
  readableRefs : ∀ name, device.unreadableRef name = none

/-! ## Generations and their trees -/

def generationId (ls : Lifestream) (g : Generation) : ObjectId :=
  ls.store.idOf (Object.generation g).encode

/-- The generation is one of this tree, and all of both was offered. -/
structure Taken (ls : Lifestream) (library : Bytes → Prop) (tree : HostTree) (g : Generation) :
    Prop where
  proper : tree.Proper
  faithful : tree.Faithful
  root : g.root = ls.store.idOf (Object.tree (treeEntries ls tree)).encode
  offeredRoot : library (Object.tree (treeEntries ls tree)).encode
  offers : OffersTree ls library tree
  fits : (Object.generation g).Fits
  offered : library (Object.generation g).encode

/-- The generations committed so far with their trees, the newest first. -/
inductive Chronicle (ls : Lifestream) (library : Bytes → Prop) :
    List (HostTree × Generation) → Prop where
  | start : Chronicle ls library []
  | commit {log : List (HostTree × Generation)} {tree : HostTree} {g : Generation}
      (older : Chronicle ls library log) (taken : Taken ls library tree g)
      (parents : ∀ parent ∈ g.parents, ∃ entry ∈ log, parent = generationId ls entry.2) :
      Chronicle ls library ((tree, g) :: log)

section Chronicle

variable {ls : Lifestream} {library : Bytes → Prop} {log : List (HostTree × Generation)}

theorem Taken.imp {larger : Bytes → Prop} {tree : HostTree} {g : Generation}
    (taken : Taken ls library tree g) (more : ∀ plaintext, library plaintext → larger plaintext) :
    Taken ls larger tree g :=
  { taken with
    offeredRoot := more _ taken.offeredRoot
    offers := offers_tree_imp more tree taken.offers
    offered := more _ taken.offered }

theorem Chronicle.imp {larger : Bytes → Prop} (chronicle : Chronicle ls library log)
    (more : ∀ plaintext, library plaintext → larger plaintext) : Chronicle ls larger log := by
  induction chronicle with
  | start => exact .start
  | commit _ taken parents ih => exact .commit ih (taken.imp more) parents

theorem Chronicle.taken (chronicle : Chronicle ls library log) {tree : HostTree} {g : Generation}
    (member : (tree, g) ∈ log) : Taken ls library tree g := by
  induction chronicle with
  | start => cases member
  | commit _ taken _ ih =>
      rcases List.mem_cons.mp member with same | later
      · cases same
        exact taken
      · exact ih later

variable {device : Device} (sound : Sound ls.store device)
  (apart : ∀ left, library left → ∀ right ∈ device.written,
    ls.store.idOf left = ls.store.idOf right → left = right)
  (readable : device.Readable)

include sound apart readable

theorem get_taken {tree : HostTree} {g : Generation} (taken : Taken ls library tree g)
    (complete : Complete ls device (generationId ls g)) :
    ls.get device (generationId ls g) = .ok (.generation g) := by
  apply get_of_contents ls device _ _ _ (readable _)
  exact contents_of_library sound apart taken.fits taken.offered (complete _ (Reaches.refl _ _))

/-- A history leads from generation to generation, by the age of what it comes by. -/
theorem Chronicle.history (chronicle : Chronicle ls library log) :
    ∀ tree g, (tree, g) ∈ log → Complete ls device (generationId ls g) →
      ∃ steps generations, ls.history device steps (generationId ls g) = some (.ok generations) ∧
        generations.head? = some (generationId ls g, g) ∧
        ∀ id older, (id, older) ∈ generations → id = generationId ls older ∧
          Complete ls device id ∧ ∃ tree, (tree, older) ∈ log := by
  induction chronicle with
  | start => exact fun _ _ member => absurd member List.not_mem_nil
  | @commit log tree g _ taken parents ih =>
      intro tree' g' member complete
      rcases List.mem_cons.mp member with same | later
      case inr =>
        obtain ⟨steps, generations, ran, first, all⟩ := ih tree' g' later complete
        refine ⟨steps, generations, ran, first, fun id older among => ?_⟩
        obtain ⟨address, below, tree, old⟩ := all id older among
        exact ⟨address, below, tree, List.mem_cons_of_mem _ old⟩
      case inl =>
        cases same
        have got := get_taken sound apart readable taken complete
        cases lineage : g.parents with
        | nil =>
            refine ⟨1, [(generationId ls g, g)], ?_, rfl, ?_⟩
            · simp only [Lifestream.history, got, lineage]
            · intro id older among
              cases List.mem_singleton.mp among
              exact ⟨rfl, complete, tree, List.mem_cons_self⟩
        | cons parent others =>
            have listed : parent ∈ g.parents := by rw [lineage]; exact List.mem_cons_self
            obtain ⟨⟨oldTree, old⟩, among, rfl⟩ := parents parent listed
            have below := links_complete sound apart taken.fits taken.offered complete
              (List.mem_cons_of_mem g.root listed)
            obtain ⟨steps, generations, ran, _, all⟩ := ih oldTree old among below
            refine ⟨steps + 1, (generationId ls g, g) :: generations, ?_, rfl, ?_⟩
            · simp only [Lifestream.history, got, lineage, ran, Option.map_some, Except.map]
            · intro id older found
              rcases List.mem_cons.mp found with here | rest
              · cases here
                exact ⟨rfl, complete, tree, List.mem_cons_self⟩
              · obtain ⟨address, deep, oldest, old'⟩ := all id older rest
                exact ⟨address, deep, oldest, List.mem_cons_of_mem _ old'⟩

/-- A generation whose id is complete restores as its tree. -/
theorem Taken.restores {tree : HostTree} {g : Generation} (taken : Taken ls library tree g)
    (free : CollisionFree ls.store device) (complete : Complete ls device (generationId ls g))
    (defaults : Defaults) (depth : Nat) (deep : treeDepth tree < depth) (fs : HostFs)
    (dest : HostPath) (dirs : Directories fs dest)
    (empty : ∀ name rest, fs (dest ++ name :: rest) = none) :
    ∃ restored, restore ls device defaults depth (generationId ls g).toHex dest fs =
        .ok (generationId ls g) restored ∧ Lays fs restored dest tree.regular := by
  have below := links_complete sound apart taken.fits taken.offered complete List.mem_cons_self
  rw [taken.root] at below
  obtain ⟨after, restored, laid⟩ := restore_of_complete sound apart defaults tree taken.proper
    taken.faithful taken.offeredRoot taken.offers below free readable depth deep fs dest dirs empty
  rw [← taken.root] at restored
  exact ⟨after, restore_hex (get_taken sound apart readable taken complete) restored, laid⟩

end Chronicle

/-! ## What every disk keeps -/

/-- Every record opens to an object that was offered, and a generation to one committed. -/
def Recorded (ls : Lifestream) (library : Bytes → Prop) (log : List (HostTree × Generation))
    (device : Device) : Prop :=
  ∀ id record, device.objects.lookup id = some record → ∃ object : Object, object.Fits ∧
    library object.encode ∧ ls.store.verified id record = .ok object.encode ∧
      ∀ g, object = .generation g → ∃ tree, (tree, g) ∈ log

structure Stocked (ls : Lifestream) (library : Bytes → Prop)
    (log : List (HostTree × Generation)) (device : Device) : Prop where
  sound : Sound ls.store device
  readable : device.Readable
  readableRefs : ∀ name, device.unreadableRef name = none
  recorded : Recorded ls library log device
  whole : ∀ name target, device.getRef name = .ok (some target) → Whole ls device target
  generation : ∀ name target, device.getRef name = .ok (some target) →
    ∃ g, ls.contents device target = some (.generation g)

section Stocked

variable {ls : Lifestream} {library : Bytes → Prop} {log : List (HostTree × Generation)}
  {device after : Device}

theorem Stocked.imp {larger : Bytes → Prop} {more : List (HostTree × Generation)}
    (stocked : Stocked ls library log device)
    (wider : ∀ plaintext, library plaintext → larger plaintext) (longer : log ⊆ more) :
    Stocked ls larger more device :=
  { stocked with
    recorded := by
      intro id record found
      obtain ⟨object, fits, offered, opens, entered⟩ := stocked.recorded id record found
      refine ⟨object, fits, wider _ offered, opens, fun g same => ?_⟩
      obtain ⟨tree, member⟩ := entered g same
      exact ⟨tree, longer member⟩ }

/-- What is there is what it was put as. -/
theorem Stocked.contents (stocked : Stocked ls library log device) {id : ObjectId}
    (present : device.has id = true) : ∃ object : Object, object.Fits ∧ library object.encode ∧
      id = ls.store.idOf object.encode ∧ ls.contents device id = some object ∧
        ∀ g, object = .generation g → ∃ tree, (tree, g) ∈ log := by
  obtain ⟨record, found⟩ := Option.isSome_iff_exists.mp present
  obtain ⟨object, fits, offered, opens, entered⟩ := stocked.recorded id record found
  refine ⟨object, fits, offered, (verified_ok opens).1.symm, ?_, entered⟩
  simp only [HorizonOs.Lifestream.contents, found, objectIn, opens, bind, Except.bind,
    decode_encode_object object fits]
  rfl

theorem Stocked.reads (stocked : Stocked ls library log device) : AllRead ls device := by
  intro id listed
  obtain ⟨object, _, _, _, held, _⟩ := stocked.contents ((listed_iff device id).mp listed)
  exact ⟨object, get_of_contents ls device id object held (stocked.readable id)⟩

/-- The generation a ref names is one that was committed. -/
theorem Stocked.committed (stocked : Stocked ls library log device) {name : String}
    {target : ObjectId} (named : device.getRef name = .ok (some target)) :
    ∃ entry ∈ log, target = generationId ls entry.2 := by
  obtain ⟨g, held⟩ := stocked.generation name target named
  obtain ⟨object, _, _, address, same, entered⟩ := stocked.contents (contents_present held)
  rw [held] at same
  cases same
  obtain ⟨tree, member⟩ := entered g rfl
  exact ⟨(tree, g), member, address⟩

theorem Stocked.adds {kind : Object → Prop} (stocked : Stocked ls library log device)
    (adds : Adds ls kind device after)
    (fine : ∀ object, kind object → object.Fits ∧
      ∀ g, object = .generation g → ∃ tree, (tree, g) ∈ log)
    (offered : ∀ plaintext ∈ after.written, library plaintext) :
    Stocked ls library log after where
  sound := adds.sound stocked.sound
  readable id := by rw [adds.unreadable]; exact stocked.readable id
  readableRefs name := by rw [adds.unreadableRef]; exact stocked.readableRefs name
  recorded id record found := by
    rcases adds.records id record found with old | ⟨object, isKind, member, opens⟩
    · exact stocked.recorded id record old
    · obtain ⟨fits, entered⟩ := fine object isKind
      exact ⟨object, fits, offered _ member, opens, entered⟩
  whole name target named := by
    rw [get_ref_congr (by rw [adds.refs]) adds.unreadableRef] at named
    exact (stocked.whole name target named).kept adds.objects
  generation name target named := by
    rw [get_ref_congr (by rw [adds.refs]) adds.unreadableRef] at named
    obtain ⟨g, held⟩ := stocked.generation name target named
    exact ⟨g, contents_kept held adds.objects⟩

theorem Stocked.set_ref (stocked : Stocked ls library log device) {g : Generation} {id : ObjectId}
    (whole : Whole ls device id) (held : ls.contents device id = some (.generation g))
    (name : String) : Stocked ls library log (finalState (setRef name id device)) := by
  obtain ⟨grows, objects, written⟩ := set_ref_keeps ls.store name id device
  have kept : ∀ other record, device.objects.lookup other = some record →
      (finalState (setRef name id device)).objects.lookup other = some record := by
    rw [objects]
    exact fun _ _ found => found
  constructor
  case sound => exact grows.sound stocked.sound
  case readable =>
    intro id
    rw [grows.unreadable]
    exact stocked.readable id
  case readableRefs =>
    intro name
    rw [grows.unreadableRef]
    exact stocked.readableRefs name
  case recorded =>
    intro id record found
    rw [objects] at found
    exact stocked.recorded id record found
  case whole =>
    intro other target named
    rcases set_ref_targets ls.store name id device other target named with old | ⟨_, rfl⟩
    · exact (stocked.whole other target old).kept kept
    · exact whole.kept kept
  case generation =>
    intro other target named
    rcases set_ref_targets ls.store name id device other target named with old | ⟨_, rfl⟩
    · obtain ⟨g, held⟩ := stocked.generation other target old
      exact ⟨g, contents_kept held kept⟩
    · exact ⟨g, contents_kept held kept⟩

theorem Stocked.collected (stocked : Stocked ls library log device) :
    Stocked ls library log (finalState (collect ls device)) := by
  cases read : device.readRefs with
  | error error =>
      have same : finalState (collect ls device) = device := by
        simp only [collect, bind_apply, theDevice, Lifestream.liftExcept, read]
        rfl
      rwa [same]
  | ok refs =>
      have same : finalState (collect ls device) =
          finalState (Lifestream.gc ls (refs.map Prod.snd) device) := by
        simp only [collect, bind_apply, theDevice, Lifestream.liftExcept, read]
      rw [same]
      have leaves := gc_leaves ls (refs.map Prod.snd) device
      set left := finalState (Lifestream.gc ls (refs.map Prod.snd) device) with leftDef
      have old : ∀ id record, left.objects.lookup id = some record →
          device.objects.lookup id = some record := by
        intro id record found
        rw [← leaves.records id (Option.isSome_iff_exists.mpr ⟨record, found⟩)]
        exact found
      have refsSame : ∀ name, left.getRef name = device.getRef name :=
        fun name => get_ref_congr (by rw [leaves.refs]) leaves.unreadableRef
      have rooted : ∀ name target, left.getRef name = .ok (some target) →
          Whole ls left target := by
        intro name target named
        rw [refsSame] at named
        apply Whole.collected stocked.reads _ (stocked.whole name target named)
        exact List.mem_map_of_mem ((read_refs_mem device refs read name target).mpr named)
      constructor
      case sound =>
        intro id record found
        rw [leaves.written]
        exact stocked.sound id record (old id record found)
      case readable =>
        intro id
        rw [leaves.unreadable]
        exact stocked.readable id
      case readableRefs =>
        intro name
        rw [leaves.unreadableRef]
        exact stocked.readableRefs name
      case recorded => exact fun id record found => stocked.recorded id record (old id record found)
      case whole => exact rooted
      case generation =>
        intro name target named
        obtain ⟨object, held⟩ := rooted name target named target (Reaches.refl _ _)
        rw [refsSame] at named
        obtain ⟨g, before⟩ := stocked.generation name target named
        have same := contents_congr ls (leaves.records target (contents_present held))
        exact ⟨g, same.trans before⟩

theorem collect_written (ls : Lifestream) (device : Device) :
    (finalState (collect ls device)).written = device.written := by
  simp only [collect, bind_apply, theDevice, Lifestream.liftExcept]
  cases device.readRefs with
  | error error => rfl
  | ok refs => exact (gc_leaves ls (refs.map Prod.snd) device).written

end Stocked

/-! ## A snapshot -/

section Snapshot

variable {ls : Lifestream} {library : Bytes → Prop} {log : List (HostTree × Generation)}

theorem commit_final (ls : Lifestream) (timeUnix : UInt64) (root : ObjectId)
    (parents : List ObjectId) (label : String) (device : Device) :
    (∃ id later, ls.put (.generation ⟨root, parents, timeUnix, label, ""⟩) device = .ok id later ∧
        finalState (ls.commit timeUnix root parents label device) =
          finalState (setRef headRef id later)) ∨
      finalState (ls.commit timeUnix root parents label device) =
        finalState (ls.put (.generation ⟨root, parents, timeUnix, label, ""⟩) device) := by
  simp only [Lifestream.commit, bind_apply]
  cases put : ls.put (.generation ⟨root, parents, timeUnix, label, ""⟩) device with
  | error error later => exact .inr rfl
  | ok id later =>
      refine .inl ⟨id, later, rfl, ?_⟩
      simp only
      cases setRef headRef id later <;> rfl

theorem commit_grows (ls : Lifestream) (timeUnix : UInt64) (root : ObjectId)
    (parents : List ObjectId) (label : String) (device : Device) :
    (finalState (ls.put (.generation ⟨root, parents, timeUnix, label, ""⟩) device)).written ⊆
      (finalState (ls.commit timeUnix root parents label device)).written := by
  rcases commit_final ls timeUnix root parents label device with ⟨id, later, put, same⟩ | same
  · rw [same, (set_ref_keeps ls.store headRef id later).2.2, put]
    exact List.Subset.refl _
  · rw [same]
    exact List.Subset.refl _

/-- A new generation on top of what a ref names. -/
theorem Stocked.commits {device : Device} (stocked : Stocked ls library log device)
    (chronicle : Chronicle ls library log) {tree : HostTree} (proper : tree.Proper)
    (faithful : tree.Faithful) {label : String} (short : (utf8 label).length < 2 ^ 32)
    (timeUnix : UInt64) {head : Option ObjectId} (named : device.getRef headRef = .ok head)
    (stored : Stored ls.store device (Object.tree (treeEntries ls tree)).encode)
    (holds : HoldsTree ls device tree)
    (offered : ∀ plaintext ∈ (finalState (ls.commit timeUnix
      (ls.store.idOf (Object.tree (treeEntries ls tree)).encode) head.toList label
        device)).written, library plaintext)
    (free : ∀ left right, library left → library right →
      ls.store.idOf left = ls.store.idOf right → left = right) :
    ∃ g, g.label = label ∧ g.timeUnix = timeUnix ∧ Chronicle ls library ((tree, g) :: log) ∧
      Stocked ls library ((tree, g) :: log) (finalState (ls.commit timeUnix
        (ls.store.idOf (Object.tree (treeEntries ls tree)).encode) head.toList label device)) := by
  set root := ls.store.idOf (Object.tree (treeEntries ls tree)).encode with rootDef
  set g : Generation := ⟨root, head.toList, timeUnix, label, ""⟩ with gDef
  have final := commit_final ls timeUnix root head.toList label device
  have adds : Preserves (Adds ls (· = .generation g)) (ls.put (.generation g)) :=
    adds_put (.generation g) rfl
  replace adds := adds device
  have wrote : (finalState (ls.put (.generation g) device)).written =
      (Object.generation g).encode :: device.written :=
    put_written ls.store (Object.generation g).encode device
  have grown : (finalState (ls.put (.generation g) device)).written ⊆
      (finalState (ls.commit timeUnix root head.toList label device)).written :=
    commit_grows ls timeUnix root head.toList label device
  have here : ∀ plaintext ∈ (finalState (ls.put (.generation g) device)).written,
      library plaintext := fun plaintext member => offered plaintext (grown member)
  have before : ∀ plaintext ∈ device.written, library plaintext :=
    fun plaintext member => here plaintext (adds.written member)
  have fits : (Object.generation g).Fits := by
    have blank : (utf8 "").length < 2 ^ 32 := by decide
    refine ⟨?_, short, blank⟩
    cases head <;> simp [gDef]
  have taken : Taken ls library tree g :=
    { proper, faithful, fits
      root := rfl
      offeredRoot := before _ stored.offered
      offers := offers_tree_imp before tree (offers_of_holds_tree tree holds)
      offered := by
        apply here
        rw [wrote]
        exact List.mem_cons_self }
  have parents : ∀ parent ∈ g.parents, ∃ entry ∈ log, parent = generationId ls entry.2 := by
    intro parent member
    rw [Option.mem_toList] at member
    rw [member] at named
    exact stocked.committed named
  have put : Stocked ls library ((tree, g) :: log) (finalState (ls.put (.generation g) device)) := by
    apply (stocked.imp (fun _ known => known) (List.subset_cons_self _ log)).adds adds _ here
    rintro object rfl
    refine ⟨fits, fun other same => ?_⟩
    cases same
    exact ⟨tree, List.mem_cons_self⟩
  refine ⟨g, rfl, rfl, .commit chronicle taken parents, ?_⟩
  rcases final with ⟨id, later, success, same⟩ | same
  · rw [← gDef] at success
    rw [same]
    rw [success, final_state_ok] at put adds here
    obtain ⟨address, linked⟩ :=
      put_stored ls.store (Object.generation g).encode device later id success
    have clear : CollisionFree ls.store later := fun left leftIn right rightIn =>
      free left right (here left leftIn) (here right rightIn)
    have held := contents_of_holds put.sound clear ⟨fits, address, linked⟩
    apply put.set_ref (Whole.of_links held _) held
    intro next member
    rcases List.mem_cons.mp member with isRoot | isParent
    · have clearBefore := clear.before adds.written
      rw [isRoot]
      exact (whole_tree stocked.sound clearBefore tree proper faithful stored holds).kept
        adds.objects
    · rw [Option.mem_toList] at isParent
      rw [isParent] at named
      exact (stocked.whole headRef next named).kept adds.objects
  · rw [same]
    exact put

/-- What a snapshot leaves, however it ends. -/
theorem Stocked.snapshots {device : Device} (stocked : Stocked ls library log device)
    (chronicle : Chronicle ls library log) {tree : HostTree} (proper : tree.Proper)
    (faithful : tree.Faithful) {label : String} (short : (utf8 label).length < 2 ^ 32)
    (timeUnix : UInt64)
    (offered : ∀ plaintext ∈ (finalState (snapshot ls tree label timeUnix device)).written,
      library plaintext)
    (free : ∀ left right, library left → library right →
      ls.store.idOf left = ls.store.idOf right → left = right) :
    ∃ more, log ⊆ more ∧ Chronicle ls library more ∧
      Stocked ls library more (finalState (snapshot ls tree label timeUnix device)) ∧
      ∀ entry ∈ more, entry ∈ log ∨
        entry.1 = tree ∧ entry.2.label = label ∧ entry.2.timeUnix = timeUnix := by
  have adds := adds_snapshot_dir ls tree proper faithful device
  simp only [snapshot, bind_apply, theDevice, Lifestream.liftExcept] at offered ⊢
  cases named : device.getRef headRef with
  | error error => exact ⟨log, List.Subset.refl _, chronicle, stocked, fun _ old => .inl old⟩
  | ok head =>
      simp only [named] at offered ⊢
      have content : ∀ object : Object, object.Content → object.Fits ∧
          ∀ g, object = .generation g → ∃ tree, (tree, g) ∈ log :=
        fun object isContent => ⟨isContent.1, fun g same => absurd same (isContent.2 g)⟩
      cases snapped : ls.snapshotDir tree device with
      | error error middle =>
          simp only [snapped, final_state_error] at offered adds ⊢
          exact ⟨log, List.Subset.refl _, chronicle, stocked.adds adds content offered,
            fun _ old => .inl old⟩
      | ok root middle =>
          obtain ⟨rfl, stored, holds, _⟩ := snapshot_dir_holds ls tree device middle root snapped
          simp only [snapped, final_state_ok] at offered adds ⊢
          have grown : middle.written ⊆ (finalState (ls.commit timeUnix
              (ls.store.idOf (Object.tree (treeEntries ls tree)).encode) head.toList label
                middle)).written :=
            List.Subset.trans (advances_put ls.store _ middle).written
              (commit_grows ls timeUnix _ head.toList label middle)
          have ready : Stocked ls library log middle :=
            stocked.adds adds content fun plaintext member => offered plaintext (grown member)
          have still : middle.getRef headRef = .ok head := by
            rw [get_ref_congr (by rw [adds.refs]) adds.unreadableRef]
            exact named
          obtain ⟨g, isLabel, isTime, next, kept⟩ := ready.commits chronicle proper faithful short
            timeUnix still stored holds offered free
          refine ⟨(tree, g) :: log, List.subset_cons_self _ _, next, kept, ?_⟩
          intro entry member
          rcases List.mem_cons.mp member with rfl | old
          · exact .inr ⟨rfl, isLabel, isTime⟩
          · exact .inl old

/-- No operation of the store forgets what it was offered. -/
theorem snapshot_grows (ls : Lifestream) (tree : HostTree) (proper : tree.Proper)
    (faithful : tree.Faithful) (label : String) (timeUnix : UInt64) (device : Device) :
    device.written ⊆ (finalState (snapshot ls tree label timeUnix device)).written := by
  have adds := adds_snapshot_dir ls tree proper faithful device
  simp only [snapshot, bind_apply, theDevice, Lifestream.liftExcept]
  cases device.getRef headRef with
  | error error => exact List.Subset.refl _
  | ok head =>
      simp only
      cases snapped : ls.snapshotDir tree device with
      | error error middle =>
          rw [snapped] at adds
          exact adds.written
      | ok root middle =>
          rw [snapped] at adds
          apply List.Subset.trans adds.written
          exact List.Subset.trans (advances_put ls.store _ middle).written
            (commit_grows ls timeUnix root head.toList label middle)

end Snapshot

/-! ## A sync -/

section Sync

variable {ls : Lifestream} {library : Bytes → Prop} {log : List (HostTree × Generation)}
  {source dest after : Device}

theorem Stocked.alike (here : Stocked ls library log source) (there : Stocked ls library log dest)
    (free : ∀ left right, library left → library right →
      ls.store.idOf left = ls.store.idOf right → left = right) : Alike ls source dest := by
  intro id first second plaintext other found found' opens opens'
  obtain ⟨left, _, offered, opened, _⟩ := here.recorded id first found
  obtain ⟨right, _, offered', opened', _⟩ := there.recorded id second found'
  rw [opens] at opened
  rw [opens'] at opened'
  cases opened
  cases opened'
  apply free _ _ offered offered'
  rw [(verified_ok opens).1, (verified_ok opens').1]

/-- What a sync leaves at its destination, however it ends. -/
theorem Stocked.midway (here : Stocked ls library log source)
    (there : Stocked ls library log dest) (midway : Midway ls source dest after)
    (free : ∀ left right, library left → library right →
      ls.store.idOf left = ls.store.idOf right → left = right) :
    Stocked ls library log after := by
  have alike := here.alike there free
  have valid := sound_valid there.sound
  have outlook := midway.unreadable_ref
  obtain ⟨start, carried, halfway, either⟩ := midway
  have kept : ∀ id record, start.objects.lookup id = some record →
      after.objects.lookup id = some record := by
    rw [halfway.only.objects]
    exact fun _ _ found => found
  -- a ref is where it was, or it has moved and all of the source was there before it did
  have placed : ∀ name target, after.getRef name = .ok (some target) →
      dest.getRef name = .ok (some target) ∨ source.getRef name = .ok (some target) ∧
        ∀ id, source.has id = true → start.has id = true := by
    intro name target named
    have stays : after.refs.lookup name = start.refs.lookup name →
        dest.getRef name = .ok (some target) := by
      intro same
      rw [← carried.get_ref name, ← halfway.only.get_ref same]
      exact named
    rcases halfway.refs name with same | ⟨id, fate, found, _, _, moved | ⟨content, cut, blank⟩⟩
    · exact .inl (stays same)
    · rcases either with whole | untouched
      · rw [get_ref_of_text moved (by rw [outlook]; exact there.readableRefs name)] at named
        cases named
        exact .inr ⟨found, whole⟩
      · exact .inl (stays (by rw [untouched]))
    · have gone := get_ref_names cut named
      rw [blank] at gone
      cases gone
  constructor
  case sound =>
    intro id record found
    rw [halfway.only.objects] at found
    rw [halfway.only.written]
    exact carried.advances.sound there.sound id record found
  case readable =>
    intro id
    rw [halfway.only.unreadable, carried.advances.unreadable]
    exact there.readable id
  case readableRefs =>
    intro name
    rw [outlook]
    exact there.readableRefs name
  case recorded =>
    intro id record found
    rw [halfway.only.objects] at found
    rcases carried.carried id with old | ⟨_, new⟩
    · rw [old] at found
      exact there.recorded id record found
    · rw [new] at found
      exact here.recorded id record found
  case whole =>
    intro name target named
    rcases placed name target named with old | ⟨moved, whole⟩
    · exact (carried.whole_of_dest (there.whole name target old)).kept kept
    · exact (carried.whole_of_source whole alike valid (here.whole name target moved)).kept kept
  case generation =>
    intro name target named
    rcases placed name target named with old | ⟨moved, whole⟩
    · obtain ⟨g, held⟩ := there.generation name target old
      rw [← carried.contents_of_dest (contents_present held)] at held
      exact ⟨g, contents_kept held kept⟩
    · obtain ⟨g, held⟩ := here.generation name target moved
      rcases carried.contents_of_source whole alike held with same | ⟨present, bad⟩
      · exact ⟨g, contents_kept same kept⟩
      · rw [valid.contents alike held present] at bad
        cases bad

theorem midway_written (midway : Midway ls source dest after) :
    dest.written ⊆ after.written := by
  obtain ⟨start, carried, halfway, _⟩ := midway
  rw [halfway.only.written]
  exact carried.advances.written

end Sync

/-! ## Runs -/

section Runs

variable {ι : Type} [DecidableEq ι] {ls : Lifestream} {fleet : Fleet ι}
  {log : List (HostTree × Generation)}

/-- All that was ever committed is told by the chronicle, and every disk is in order. -/
structure Kept (ls : Lifestream) (log : List (HostTree × Generation)) (fleet : Fleet ι) :
    Prop where
  chronicle : Chronicle ls (Offered fleet) log
  stocked : ∀ device, Stocked ls (Offered fleet) log (fleet device)

theorem Offered.update {device : ι} {after : Device}
    (grows : (fleet device).written ⊆ after.written) (plaintext : Bytes)
    (offered : Offered fleet plaintext) : Offered (Function.update fleet device after) plaintext := by
  obtain ⟨other, member⟩ := offered
  refine ⟨other, ?_⟩
  by_cases same : other = device
  · subst same
    rw [Function.update_self]
    exact grows member
  · rwa [Function.update_of_ne same]

theorem offered_there (device : ι) (after : Device) (plaintext : Bytes)
    (member : plaintext ∈ after.written) :
    Offered (Function.update fleet device after) plaintext :=
  ⟨device, by rwa [Function.update_self]⟩

/-- One disk moves on, and the others learn of what it was offered. -/
theorem Kept.update (kept : Kept ls log fleet) {device : ι} {after : Device}
    {more : List (HostTree × Generation)} (grows : (fleet device).written ⊆ after.written)
    (longer : log ⊆ more) (chronicle : Chronicle ls (Offered (Function.update fleet device after)) more)
    (stocked : Stocked ls (Offered (Function.update fleet device after)) more after) :
    Kept ls more (Function.update fleet device after) := by
  apply Kept.mk chronicle
  intro other
  by_cases same : other = device
  · subst same
    rwa [Function.update_self]
  · rw [Function.update_of_ne same]
    exact (kept.stocked other).imp (Offered.update grows) longer

/-- The same for a deed that commits nothing. -/
theorem Kept.settle (kept : Kept ls log fleet) {device : ι} {after : Device}
    (grows : (fleet device).written ⊆ after.written)
    (stocked : Stocked ls (Offered (Function.update fleet device after)) log after) :
    Kept ls log (Function.update fleet device after) :=
  kept.update grows (List.Subset.refl log) (kept.chronicle.imp (Offered.update grows)) stocked

theorem written_step (ls : Lifestream) (fleet : Fleet ι) (deed : Deed ι) (proper : deed.Proper)
    (device : ι) : (fleet device).written ⊆ (fleetStep ls fleet deed device).written := by
  have moved : ∀ (other : ι) (after : Device), (fleet other).written ⊆ after.written →
      (fleet device).written ⊆ (Function.update fleet other after device).written := by
    intro other after grows
    by_cases same : device = other
    · subst same
      rwa [Function.update_self]
    · rw [Function.update_of_ne same]
      exact List.Subset.refl _
  cases deed with
  | snapshot other dir label timeUnix =>
      exact moved other _ (snapshot_grows ls dir proper.1 proper.2.1 label timeUnix (fleet other))
  | collect other =>
      apply moved other
      rw [collect_written]
      exact List.Subset.refl _
  | sync source dest troubles =>
      exact moved dest _ (midway_written (troubled_midway ls (fleet source) (fleet dest) troubles).2)
  | outlook other faults => exact moved other _ (List.Subset.refl _)

theorem Apart.before {deed : Deed ι} (apart : Apart ls (fleetStep ls fleet deed))
    (proper : deed.Proper) : Apart ls fleet := by
  have grown : ∀ plaintext, Offered fleet plaintext →
      Offered (fleetStep ls fleet deed) plaintext := by
    rintro plaintext ⟨device, member⟩
    exact ⟨device, written_step ls fleet deed proper device member⟩
  exact fun left right here there => apart left right (grown left here) (grown right there)

/-- The generation comes of a snapshot among the deeds. -/
def Commissioned (deeds : List (Deed ι)) (entry : HostTree × Generation) : Prop :=
  ∃ device, Deed.snapshot device entry.1 entry.2.label entry.2.timeUnix ∈ deeds

theorem Kept.step (kept : Kept ls log fleet) (deed : Deed ι) (proper : deed.Proper)
    (apart : Apart ls (fleetStep ls fleet deed)) :
    ∃ more, Kept ls more (fleetStep ls fleet deed) ∧
      ∀ entry ∈ more, entry ∈ log ∨ Commissioned [deed] entry := by
  cases deed with
  | snapshot device dir label timeUnix =>
      obtain ⟨properTree, faithful, short⟩ := proper
      have grows := snapshot_grows ls dir properTree faithful label timeUnix (fleet device)
      have wider := Offered.update grows
      obtain ⟨more, longer, chronicle, stocked, entries⟩ :=
        ((kept.stocked device).imp wider (List.Subset.refl log)).snapshots
          (kept.chronicle.imp wider) properTree faithful short timeUnix
          (offered_there device _) apart
      refine ⟨more, kept.update grows longer chronicle stocked, fun entry member => ?_⟩
      rcases entries entry member with old | ⟨rfl, rfl, rfl⟩
      · exact .inl old
      · exact .inr ⟨device, List.mem_singleton.mpr rfl⟩
  | collect device =>
      have same := collect_written ls (fleet device)
      have grows : (fleet device).written ⊆ (finalState (collect ls (fleet device))).written := by
        rw [same]
        exact List.Subset.refl _
      refine ⟨log, kept.settle grows ?_, fun _ old => .inl old⟩
      exact ((kept.stocked device).imp (Offered.update grows) (List.Subset.refl log)).collected
  | sync source dest troubles =>
      obtain ⟨_, midway⟩ := troubled_midway ls (fleet source) (fleet dest) troubles
      have wider := Offered.update (midway_written midway)
      refine ⟨log, kept.settle (midway_written midway) ?_, fun _ old => .inl old⟩
      exact ((kept.stocked source).imp wider (List.Subset.refl log)).midway
        ((kept.stocked dest).imp wider (List.Subset.refl log)) midway apart
  | outlook device faults =>
      have grows : (fleet device).written ⊆
          ({ fleet device with faults } : Device).written := List.Subset.refl _
      refine ⟨log, kept.settle grows ?_, fun _ old => .inl old⟩
      have stocked := (kept.stocked device).imp (Offered.update grows) (List.Subset.refl log)
      exact ⟨stocked.sound, stocked.readable, stocked.readableRefs, stocked.recorded,
        stocked.whole, stocked.generation⟩

theorem written_run (ls : Lifestream) (deeds : List (Deed ι)) :
    ∀ fleet : Fleet ι, (∀ deed ∈ deeds, deed.Proper) → Apart ls (run (fleetStep ls) fleet deeds) →
      Apart ls fleet := by
  induction deeds with
  | nil => exact fun fleet _ apart => apart
  | cons deed rest ih =>
      intro fleet proper apart
      obtain ⟨first, others⟩ := List.forall_mem_cons.mp proper
      exact (ih (fleetStep ls fleet deed) others apart).before first

theorem Kept.run (deeds : List (Deed ι)) :
    ∀ (log : List (HostTree × Generation)) (fleet : Fleet ι), Kept ls log fleet →
      (∀ deed ∈ deeds, deed.Proper) → Apart ls (run (fleetStep ls) fleet deeds) →
        ∃ more, Kept ls more (run (fleetStep ls) fleet deeds) ∧
          ∀ entry ∈ more, entry ∈ log ∨ Commissioned deeds entry := by
  induction deeds with
  | nil => exact fun log fleet kept _ _ => ⟨log, kept, fun _ old => .inl old⟩
  | cons deed rest ih =>
      intro log fleet kept proper apart
      obtain ⟨first, others⟩ := List.forall_mem_cons.mp proper
      obtain ⟨middle, stepped, entries⟩ := kept.step deed first
        (written_run ls rest (fleetStep ls fleet deed) others apart)
      obtain ⟨more, ended, later⟩ := ih middle (fleetStep ls fleet deed) stepped others apart
      refine ⟨more, ended, fun entry member => ?_⟩
      rcases later entry member with before | ⟨device, among⟩
      · rcases entries entry before with old | ⟨device, here⟩
        · exact .inl old
        · rw [List.mem_singleton] at here
          exact .inr ⟨device, by rw [here]; exact List.mem_cons_self⟩
      · exact .inr ⟨device, List.mem_cons_of_mem deed among⟩

omit [DecidableEq ι] in
theorem kept_blank (ls : Lifestream) (blank : ∀ device, Blank (fleet device)) :
    Kept ls [] fleet := by
  apply Kept.mk .start
  intro device
  have empty : ∀ id, (fleet device).objects.lookup id = none := by
    intro id
    rw [(blank device).objects]
    rfl
  have unnamed : ∀ name, (fleet device).getRef name = .ok none := by
    intro name
    simp only [Device.getRef, (blank device).refs]
    rfl
  constructor
  case sound =>
    intro id record found
    rw [empty] at found
    cases found
  case readable => exact (blank device).readable
  case readableRefs => exact (blank device).readableRefs
  case recorded =>
    intro id record found
    rw [empty] at found
    cases found
  case whole =>
    intro name target named
    rw [unnamed] at named
    cases named
  case generation =>
    intro name target named
    rw [unnamed] at named
    cases named

/-- On every device of a fleet that began with blank disks, the history of a ref reads to
its beginning, and each of its generations is one of a snapshot taken on some device and
restores here as the tree of that snapshot. -/
theorem every_generation_restores (ls : Lifestream) (fleet : Fleet ι)
    (blank : ∀ device, Blank (fleet device)) (deeds : List (Deed ι))
    (proper : ∀ deed ∈ deeds, deed.Proper) (apart : Apart ls (run (fleetStep ls) fleet deeds))
    (here : ι) (name : String) (target : ObjectId)
    (named : (run (fleetStep ls) fleet deeds here).getRef name = .ok (some target)) :
    ∃ steps generations,
      ls.history (run (fleetStep ls) fleet deeds here) steps target = some (.ok generations) ∧
      generations.head?.map Prod.fst = some target ∧
      ∀ id g, (id, g) ∈ generations → ∃ there tree,
        Deed.snapshot there tree g.label g.timeUnix ∈ deeds ∧
        ∀ defaults depth fs dest, treeDepth tree < depth → Directories fs dest →
          (∀ first rest, fs (dest ++ first :: rest) = none) →
            ∃ restored, restore ls (run (fleetStep ls) fleet deeds here) defaults depth id.toHex dest
                fs = .ok id restored ∧ Lays fs restored dest tree.regular := by
  obtain ⟨log, kept, entries⟩ := (kept_blank ls blank).run deeds [] fleet proper apart
  have stocked := kept.stocked here
  have clear : ∀ left, Offered (run (fleetStep ls) fleet deeds) left →
      ∀ right ∈ (run (fleetStep ls) fleet deeds here).written,
        ls.store.idOf left = ls.store.idOf right → left = right :=
    fun left offered right member => apart left right offered ⟨here, member⟩
  have free : CollisionFree ls.store (run (fleetStep ls) fleet deeds here) :=
    fun left member => clear left ⟨here, member⟩
  obtain ⟨⟨tree, g⟩, member, rfl⟩ := stocked.committed named
  have complete := (stocked.whole name _ named).complete
  obtain ⟨steps, generations, ran, first, all⟩ := kept.chronicle.history stocked.sound clear
    stocked.readable tree g member complete
  refine ⟨steps, generations, ran, by rw [first]; rfl, ?_⟩
  intro id older among
  obtain ⟨rfl, deep, tree, old⟩ := all id older among
  rcases entries _ old with none | ⟨there, taken⟩
  · cases none
  · refine ⟨there, tree, taken, ?_⟩
    intro defaults depth fs dest deepEnough dirs empty
    exact (kept.chronicle.taken old).restores stocked.sound clear stocked.readable free deep
      defaults depth deepEnough fs dest dirs empty

end Runs

/-- One device takes a snapshot, another fetches it and cleans up. -/
def sampleDeeds : List (Deed Bool) :=
  [.snapshot false (linkTo (utf8 "b")) "one" 1, .sync false true [], .collect true]

def sampleFleet : Fleet Bool := run (fleetStep sampleStore) (fun _ => Device.fresh) sampleDeeds

theorem every_generation_restores_sample : ∃ target steps generations,
    sampleStore.history (sampleFleet true) steps target = some (.ok generations) ∧
      generations.head?.map Prod.fst = some target := by
  have named : ((sampleFleet true).getRef headRef).toOption.join.isSome = true := by decide +kernel
  obtain ⟨target, found⟩ := Option.isSome_iff_exists.mp named
  have ref : (sampleFleet true).getRef headRef = .ok (some target) := by
    cases read : (sampleFleet true).getRef headRef with
    | error error =>
        rw [read] at found
        cases found
    | ok head =>
        rw [read] at found
        cases found
        rfl
  have apart : ∀ left ∈ (sampleFleet false).written ++ (sampleFleet true).written,
      ∀ right ∈ (sampleFleet false).written ++ (sampleFleet true).written,
        sampleStore.store.idOf left = sampleStore.store.idOf right → left = right := by
    decide +kernel
  have among : ∀ plaintext, Offered sampleFleet plaintext →
      plaintext ∈ (sampleFleet false).written ++ (sampleFleet true).written := by
    rintro plaintext ⟨device, member⟩
    cases device with
    | false => exact List.mem_append_left _ member
    | true => exact List.mem_append_right _ member
  have text : (fromUtf8 (utf8 "b")).isSome := by
    rw [from_utf8_utf8]
    rfl
  have faithful : (linkTo (utf8 "b")).Faithful := ⟨by decide, text, trivial⟩
  obtain ⟨steps, generations, ran, first, _⟩ := every_generation_restores sampleStore
    (fun _ => Device.fresh) (fun _ => ⟨rfl, rfl, fun _ => rfl, fun _ => rfl⟩) sampleDeeds
    (by
      intro deed member
      simp only [sampleDeeds, List.mem_cons, List.not_mem_nil, or_false] at member
      rcases member with rfl | rfl | rfl
      · exact ⟨proper_link (utf8 "b") (by decide) (by decide), faithful, by decide⟩
      · trivial
      · trivial)
    (fun left right here there => apart left (among left here) right (among right there))
    true headRef target ref
  exact ⟨target, steps, generations, ran, first⟩

end HorizonOs.Cli
