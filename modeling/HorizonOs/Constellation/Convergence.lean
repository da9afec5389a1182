import HorizonOs.Constellation.RefLaws
import HorizonOs.Lifestream.Sample

/-!
# Sync is complete and converges

A sync that ends leaves the destination with everything both stores had, moves
refs forward only and has nothing left to do. Two of them, one each way, leave
both stores with the same objects and, but for diverged histories, the same
refs.
-/

namespace HorizonOs.Constellation

open HorizonOs.Lib.ByteCodec HorizonOs.Lib.Runs HorizonOs.Lib.Programs HorizonOs.Lib.Search
open HorizonOs.Lifestream

set_option autoImplicit false

/-- No file of the disk fails to read, and every object on it opens. -/
structure Legible (ls : Lifestream) (device : Device) : Prop where
  readable : ∀ id, device.unreadable id = none
  readableRef : ∀ name, device.unreadableRef name = none
  objects : ∀ id, device.has id = true → ∃ object, ls.contents device id = some object

/-! ## The transferred disk -/

section Carried

variable {ls : Lifestream} {source dest start : Device}

theorem Carried.legible (carried : Carried ls source dest start) (sourceLegible : Legible ls source)
    (destLegible : Legible ls dest) : Legible ls start where
  readable id := by
    rw [carried.advances.unreadable]
    exact destLegible.readable id
  readableRef name := by
    rw [carried.advances.unreadableRef]
    exact destLegible.readableRef name
  objects id present := by
    rcases carried.carried id with same | ⟨_, same⟩
    · rw [Device.has, same] at present
      rw [contents_congr ls same]
      exact destLegible.objects id present
    · rw [Device.has, same] at present
      rw [contents_congr ls same]
      exact sourceLegible.objects id present

theorem Legible.valid {device : Device} (legible : Legible ls device) : Valid ls device := by
  intro id record found
  obtain ⟨object, held⟩ := legible.objects id (Option.isSome_iff_exists.mpr ⟨record, found⟩)
  obtain ⟨record', plaintext, found', opens, _⟩ := contents_opens held
  rw [found] at found'
  cases found'
  exact ⟨plaintext, opens⟩

/-- What is complete on the source is complete where all of it was carried. -/
theorem Carried.complete (carried : Carried ls source dest start)
    (whole : ∀ id, source.has id = true → start.has id = true) (alike : Alike ls source dest)
    (sourceLegible : Legible ls source) (destLegible : Legible ls dest) {id : ObjectId}
    (complete : Complete ls source id) : Complete ls start id := by
  have opens : Whole ls source id :=
    fun reached path => sourceLegible.objects reached (complete reached path)
  exact (carried.whole_of_source whole alike destLegible.valid opens).complete

end Carried

/-- A history that opens is read without error. -/
theorem Legible.parents {ls : Lifestream} {device : Device} (legible : Legible ls device)
    (id : ObjectId) : ∃ reply, parentsAnswer (ls.get device id) = .ok reply := by
  cases present : device.has id with
  | true =>
      obtain ⟨object, held⟩ := legible.objects id present
      rw [get_of_contents ls device id object held (legible.readable id)]
      cases object <;> exact ⟨_, rfl⟩
  | false =>
      have absent : device.objects.lookup id = none := by
        rw [← Option.isNone_iff_eq_none, ← Option.not_isSome, ← Device.has, present]
        rfl
      refine ⟨none, ?_⟩
      simp only [Lifestream.get, ObjectStore.get, Device.readRecord, absent]
      rfl

theorem OnlyRefs.legible {ls : Lifestream} {before after : Device} (only : OnlyRefs before after)
    (legible : Legible ls before) : Legible ls after where
  readable id := by
    rw [only.unreadable]
    exact legible.readable id
  readableRef name := by
    rw [only.unreadableRef]
    exact legible.readableRef name
  objects id present := by
    rw [Device.has, only.objects] at present
    rw [contents, only.objects]
    exact legible.objects id present

/-! ## Nothing left to do -/

section Settled

variable {ls : Lifestream} {source dest : Device}

/-- Two stores whose calls never fail. -/
def unfailing (ls : Lifestream) : Terms SyncCall SyncReply Error (Device × Device) :=
  Terms.alone (localPair ls) (fun _ _ => True) fun _ _ => False

theorem reads_unfailing (ls : Lifestream) :
    Reads (unfailing ls) ls id fun request devices =>
      ∃ reply later, localPair ls request devices = .ok reply later where
  quiet _ _ same := same
  free _ _ := trivial
  answers _ _ _ _ answer := answer
  fails request state error after _ answer allowed := by
    obtain ⟨reply, later, answer'⟩ := allowed
    change localPair ls request state = .error error after at answer
    rw [id_eq, answer] at answer'
    cases answer'

theorem reading_answers {β : Type} {read : Device → Except Lifestream.Error β} {device : Device}
    {value : β} (outcome : read device = .ok value) :
    reading read device = .ok value device := by
  unfold reading
  rw [outcome]

theorem pair_source_answers {call : TransportCall} {reply : TransportReply call}
    (answer : localTransport ls call source = .ok reply source) :
    localPair ls (.source, call) (source, dest) = .ok reply (source, dest) := by
  simp only [localPair, between, answer]

theorem pair_destination_answers {call : TransportCall} {reply : TransportReply call}
    (answer : localTransport ls call dest = .ok reply dest) :
    localPair ls (.destination, call) (source, dest) = .ok reply (source, dest) := by
  simp only [localPair, between, answer]

/-- A ref that need not move is left alone. -/
theorem safe_settled_ref (legible : Legible ls dest) (report : SyncReport) (name : String)
    (id : ObjectId) (fate : Fate) (meets : Meets ls dest name id fate)
    (stands : fate.moves = false) :
    (syncRef report (name, id)).Safe (unfailing ls)
      (fun next later => later = (source, dest) ∧
        next.movedAnything = report.movedAnything) (source, dest) := by
  have serves := reads_unfailing ls
  have asked : ∀ target, dest.getRef name = .ok target →
      localPair ls (.destination, .getRef name) (source, dest) = .ok target (source, dest) := by
    intro target found
    apply pair_destination_answers
    rw [localTransport]
    exact reading_answers found
  have named : ∃ old, dest.getRef name = .ok (some old) ∧ (old ≠ id → ¬Ancestor ls dest old id) := by
    cases fate with
    | set => cases stands
    | advanced => cases stands
    | same => exact ⟨id, meets, fun differs => absurd rfl differs⟩
    | conflicted =>
        obtain ⟨old, found, _, apart, _⟩ := meets
        exact ⟨old, found, fun _ => apart⟩
  obtain ⟨old, found, apart⟩ := named
  unfold syncRef
  apply serves.ask .destination (.getRef name) rfl
  case unharmed => exact ⟨some old, (source, dest), asked (some old) found⟩
  case leads =>
    intro target after answer same
    rw [id_eq, id_eq] at same
    subst same
    rw [id_eq, asked (some old) found] at answer
    cases answer
    simp only
    split
    case isTrue => exact fun later same => ⟨same, rfl⟩
    case isFalse differs =>
      apply Program.Safe.bind
      have allowed : ∀ node, ∃ reply later,
          localPair ls (.destination, .parents node) (source, dest) = .ok reply later := by
        intro node
        obtain ⟨reply, answered⟩ := legible.parents node
        refine ⟨reply, (source, dest), pair_destination_answers ?_⟩
        rw [localTransport]
        exact reading_answers answered
      apply (safe_is_ancestor serves old id (source, dest) allowed).imp
      rintro forward later ⟨back, reaches, _⟩
      rw [id_eq, id_eq] at back
      subst back
      cases forward with
      | true => exact absurd (reaches.mp rfl) (apart differs)
      | false => exact fun later same => ⟨same, rfl⟩

/-- A sync that finds every object there and every ref where it may stay ends,
and has moved nothing. -/
theorem settled_sync (legible : Legible ls dest) (refs : List (String × ObjectId))
    (whole : ∀ id, source.has id = true → dest.has id = true)
    (read : source.readRefs = .ok refs)
    (settled : ∀ name id, (name, id) ∈ refs →
      ∃ fate, Meets ls dest name id fate ∧ fate.moves = false) :
    ∃ report, syncStores ls (source, dest) = .ok report (source, dest) ∧
      report.movedAnything = false := by
  have serves := reads_unfailing ls
  have none : missing source.listIds dest.listIds = [] := by
    apply List.eq_nil_iff_forall_not_mem.mpr
    intro id member
    obtain ⟨here, there⟩ := (mem_missing source dest id).mp member
    rw [whole id here] at there
    cases there
  have listed : ∀ device : Device, localTransport ls .haveIds device = .ok device.listIds device :=
    fun device => rfl
  have safe : sync.Safe (unfailing ls)
      (fun next later => later = (source, dest) ∧ next.movedAnything = false) (source, dest) := by
    unfold sync
    apply serves.ask .source .haveIds rfl
    case unharmed => exact ⟨_, _, pair_source_answers (listed source)⟩
    case leads =>
      intro sourceIds after answer same
      rw [id_eq, id_eq] at same
      subst same
      rw [id_eq, pair_source_answers (listed source)] at answer
      cases answer
      apply serves.ask .destination .haveIds rfl
      case unharmed => exact ⟨_, _, pair_destination_answers (listed dest)⟩
      case leads =>
        intro destIds after answer same
        rw [id_eq, id_eq] at same
        subst same
        rw [id_eq, pair_destination_answers (listed dest)] at answer
        cases answer
        rw [none]
        change (syncRefs (startReport source.listIds dest.listIds)).Safe _ _ _
        unfold syncRefs
        have given : localTransport ls .refs source = .ok refs source := by
          rw [localTransport]
          exact reading_answers read
        apply serves.ask .source .refs rfl
        case unharmed => exact ⟨_, _, pair_source_answers given⟩
        case leads =>
          intro found after answer same
          rw [id_eq, id_eq] at same
          subst same
          rw [id_eq, pair_source_answers given] at answer
          cases answer
          apply Program.Safe.imp
          · refine safe_fold syncRef (fun behind ahead next later => behind ++ ahead = refs ∧
              later = (source, dest) ∧ next.movedAnything = false) ?step ?steady [] refs
              (startReport source.listIds dest.listIds) (source, dest) ⟨rfl, rfl, rfl⟩
            case step =>
              rintro behind ⟨name, id⟩ ahead report later ⟨parts, rfl, still⟩
              have member : (name, id) ∈ refs := by
                rw [← parts]
                exact List.mem_append_right _ List.mem_cons_self
              obtain ⟨fate, meets, stands⟩ := settled name id member
              apply (safe_settled_ref legible report name id fate meets stands).imp
              rintro next later ⟨same, kept⟩
              exact ⟨by rw [List.append_assoc]; exact parts, same, kept.trans still⟩
            case steady =>
              rintro behind ahead report later last ⟨parts, here, still⟩ same
              exact ⟨parts, same.trans here, still⟩
          · exact fun next later kept => kept.2
  obtain ⟨report, later, ran, rfl, still⟩ := safe_ends safe
  exact ⟨report, ran, still⟩

end Settled

/-! ## One way -/

/-- What a sync is for: the destination has gained what it lacked, its refs have
moved forward or stayed, and the next sync finds nothing to do. -/
structure SyncsForward (ls : Lifestream) (source dest : Device) (report : SyncReport)
    (after : Device) : Prop where
  objects : ∀ id, after.has id = (source.has id || dest.has id)
  set : ∀ name id, source.getRef name = .ok (some id) → dest.getRef name = .ok none →
    after.getRef name = .ok (some id) ∧ name ∈ report.refsSet
  advanced : ∀ name id old, source.getRef name = .ok (some id) →
    dest.getRef name = .ok (some old) → old ≠ id → Ancestor ls after old id →
    after.getRef name = .ok (some id) ∧ name ∈ report.refsAdvanced
  conflicted : ∀ name id old, source.getRef name = .ok (some id) →
    dest.getRef name = .ok (some old) → old ≠ id → ¬Ancestor ls after old id →
    after.getRef name = .ok (some old) ∧ name ∈ report.refsConflicted
  same : ∀ name id, source.getRef name = .ok (some id) → dest.getRef name = .ok (some id) →
    after.getRef name = .ok (some id)
  others : ∀ name, (∀ id, source.getRef name ≠ .ok (some id)) →
    after.getRef name = dest.getRef name
  history : ∀ name old older, dest.getRef name = .ok (some old) → Ancestor ls dest older old →
    ∃ new, after.getRef name = .ok (some new) ∧ Ancestor ls after older new
  complete : ClosureComplete ls source → ∀ name ∈ report.refsSet ++ report.refsAdvanced,
    ∃ id, after.getRef name = .ok (some id) ∧ Complete ls after id
  again : ∃ second, syncStores ls (source, after) = .ok second (source, after) ∧
    second.movedAnything = false

/-- After a sync every ref is at home: it is the source's, or apart from it. -/
theorem RefsMoved.settled {ls : Lifestream} {start after : Device}
    {behind : List (String × ObjectId)} {report : SyncReport} {name : String} {id : ObjectId}
    (moved : RefsMoved ls start behind report after)
    (readable : ∀ name, start.unreadableRef name = none) (member : (name, id) ∈ behind) :
    ∃ fate, Meets ls after name id fate ∧ fate.moves = false := by
  obtain ⟨fate, meets⟩ := moved.met name id member
  have now := moved.get_ref readable member meets
  cases fate with
  | set | advanced => exact ⟨.same, now, rfl⟩
  | same => exact ⟨.same, now.trans meets, rfl⟩
  | conflicted =>
      obtain ⟨old, found, differs, apart, reads⟩ := meets
      refine ⟨.conflicted, ⟨old, now.trans found, differs, ?_, ?_⟩, rfl⟩
      · rw [Ancestor, moved.only.parents_of ls]
        exact apart
      · intro older path
        rw [Ancestor, moved.only.parents_of ls] at path
        rw [moved.only.get ls older]
        exact reads older path

/-- One-way sync is complete and drops no history. -/
theorem sync_moves_forward (ls : Lifestream) (source dest : Device) (report : SyncReport)
    (later : Device × Device) (alike : Alike ls source dest) (sourceLegible : Legible ls source)
    (destLegible : Legible ls dest) (ran : syncStores ls (source, dest) = .ok report later) :
    later.1 = source ∧ SyncsForward ls source dest report later.2 := by
  obtain ⟨kept, start, refs, carried, whole, read, moved⟩ := synced_of_ok ran
  have startLegible := carried.legible sourceLegible destLegible
  have named := read_refs_mem source refs read
  have before := carried.get_ref
  have graph : ∀ old id, Ancestor ls later.2 old id ↔ Ancestor ls start old id := by
    intro old id
    rw [Ancestor, Ancestor, moved.only.parents_of ls]
  have held : ∀ id, later.2.has id = start.has id := by
    intro id
    rw [Device.has, moved.only.objects, Device.has]
  have noted : ∀ name fate, fate ≠ .same → name ∈ report.named fate →
      ∃ id, (name, id) ∈ refs ∧ Meets ls start name id fate :=
    fun name fate told => (moved.noted name fate told).mp
  have fated : ∀ name id fate, source.getRef name = .ok (some id) → Meets ls start name id fate →
      (later.2.getRef name = if fate.moves then .ok (some id) else dest.getRef name) ∧
        (fate ≠ .same → name ∈ report.named fate) := by
    intro name id fate found meets
    have member := (named name id).mpr found
    constructor
    · rw [← before name]
      exact moved.get_ref startLegible.readableRef member meets
    · exact fun told => (moved.noted name fate told).mpr ⟨id, member, meets⟩
  refine ⟨kept, ?_⟩
  constructor
  case objects =>
    intro id
    rw [held id]
    exact carried.has whole id
  case set =>
    intro name id found absent
    obtain ⟨now, told⟩ := fated name id .set found ((before name).trans absent)
    exact ⟨now, told Fate.noConfusion⟩
  case advanced =>
    intro name id old found there differs path
    obtain ⟨now, told⟩ := fated name id .advanced found
      ⟨old, (before name).trans there, differs, (graph old id).mp path⟩
    exact ⟨now, told Fate.noConfusion⟩
  case conflicted =>
    intro name id old found there differs apart
    obtain ⟨now, told⟩ := fated name id .conflicted found
      ⟨old, (before name).trans there, differs, fun path => apart ((graph old id).mpr path),
        fun older _ => startLegible.parents older⟩
    exact ⟨now.trans there, told Fate.noConfusion⟩
  case same =>
    intro name id found there
    exact (fated name id .same found ((before name).trans there)).1.trans there
  case others =>
    intro name absent
    rw [← before name]
    apply moved.only.get_ref
    apply moved.others
    intro member
    obtain ⟨⟨_, id⟩, found, rfl⟩ := List.mem_map.mp member
    exact absent id ((named _ id).mp found)
  case history =>
    intro name old older there path
    have kept' : Ancestor ls start older old := path.kept carried.advances.objects
    by_cases unmoved : later.2.getRef name = dest.getRef name
    · exact ⟨old, unmoved.trans there, (graph older old).mpr kept'⟩
    · have among : name ∈ refs.map Prod.fst := by
        by_contra absent
        apply unmoved
        rw [← before name]
        exact moved.only.get_ref (moved.others name absent)
      obtain ⟨⟨_, id⟩, member, rfl⟩ := List.mem_map.mp among
      obtain ⟨fate, meets⟩ := moved.met _ id member
      obtain ⟨now, _⟩ := fated _ id fate ((named _ id).mp member) meets
      cases fate with
      | set =>
          rw [Meets, before, there] at meets
          cases meets
      | same | conflicted => exact absurd now unmoved
      | advanced =>
          obtain ⟨first, found, _, forward⟩ := meets
          rw [before, there] at found
          cases found
          exact ⟨id, now, (graph older id).mpr (forward.trans kept')⟩
  case complete =>
    intro closed name member
    have one : ∀ fate : Fate, fate ≠ .same → fate.moves = true → name ∈ report.named fate →
        ∃ id, later.2.getRef name = .ok (some id) ∧ Complete ls later.2 id := by
      intro fate told moves there
      obtain ⟨id, found, meets⟩ := noted name fate told there
      have origin := (named name id).mp found
      obtain ⟨now, _⟩ := fated name id fate origin meets
      rw [if_pos moves] at now
      refine ⟨id, now, ?_⟩
      have complete := carried.complete whole alike sourceLegible destLegible (closed name id origin)
      intro reached path
      rw [held]
      apply complete
      apply path.imp
      intro node _
      simp only [edges, contents, moved.only.objects]
      exact List.Subset.refl _
    rcases List.mem_append.mp member with there | there
    · exact one .set Fate.noConfusion rfl there
    · exact one .advanced Fate.noConfusion rfl there
  case again =>
    apply settled_sync (moved.only.legible startLegible) refs
    · intro id there
      rw [held]
      exact whole id there
    · exact read
    · intro name id member
      exact moved.settled startLegible.readableRef member

theorem committed_legible (labels : List String)
    (opens : ∀ id ∈ (Device.committed labels).listIds,
      (sampleStore.contents (Device.committed labels) id).isSome) :
    Legible sampleStore (Device.committed labels) where
  readable := (committed_healthy labels).unreadable
  readableRef := (committed_healthy labels).unreadableRef
  objects id present :=
    Option.isSome_iff_exists.mp (opens id ((listed_iff (Device.committed labels) id).mpr present))

/-- A store that is one commit ahead moves the other's `HEAD` forward. -/
theorem second_commit_syncs_forward : ∃ report later,
    syncStores sampleStore (Device.committed ["one", "two"], Device.committed ["one"]) =
      .ok report later ∧ later.1 = Device.committed ["one", "two"] ∧
    SyncsForward sampleStore (Device.committed ["one", "two"]) (Device.committed ["one"]) report
      later.2 := by
  obtain ⟨report, later, ran⟩ := of_is_ok (syncStores sampleStore
    (Device.committed ["one", "two"], Device.committed ["one"])) (by decide +kernel)
  refine ⟨report, later, ran, ?_⟩
  exact sync_moves_forward sampleStore _ _ report later
    two_commits_alike (committed_legible _ (by decide +kernel))
    (committed_legible _ (by decide +kernel)) ran

/-! ## Both ways -/

/-- Every history a ref of the disk names is there and opens. -/
structure HistoriesRead (ls : Lifestream) (device : Device) : Prop where
  readableRef : ∀ name, device.unreadableRef name = none
  whole : ∀ name target older, device.getRef name = .ok (some target) →
    Ancestor ls device older target → ∃ object, ls.contents device older = some object

/-- The two stores hold the same target for this ref, or each its own old one,
neither of which has the other in its history. -/
def Converged (ls : Lifestream) (a b a' b' : Device) (name : String) : Prop :=
  (∃ target, a'.getRef name = .ok target ∧ b'.getRef name = .ok target) ∨
    ∃ left right, a.getRef name = .ok (some left) ∧ a'.getRef name = .ok (some left) ∧
      b.getRef name = .ok (some right) ∧ b'.getRef name = .ok (some right) ∧
      ∀ device ∈ [a', b'], ¬Ancestor ls device left right ∧ ¬Ancestor ls device right left

/-- A history that is whole on one disk is the same on two others that hold it. -/
theorem Ancestor.elsewhere {ls : Lifestream} {home here there : Device} {id older : ObjectId}
    (path : Ancestor ls there older id)
    (whole : ∀ older, Ancestor ls home older id → ∃ object, ls.contents home older = some object)
    (kept : ∀ older object, ls.contents home older = some object →
      ls.contents there older = some object)
    (opens : ∀ older object, Ancestor ls here older id → ls.contents home older = some object →
      ls.contents here older = some object) : Ancestor ls here older id := by
  have both : Ancestor ls home older id ∧ Ancestor ls here older id := by
    apply Reaches.carries path
    · rintro node ⟨athome, athere⟩ next leads
      obtain ⟨object, held⟩ := whole node athome
      have same : ls.parentsOf there node = ls.parentsOf home node := by
        simp only [parentsOf, held, kept node object held]
      have same' : ls.parentsOf here node = ls.parentsOf home node := by
        simp only [parentsOf, held, opens node object athere held]
      rw [same] at leads
      exact ⟨athome.edge leads, athere.edge (same' ▸ leads)⟩
    · exact ⟨Reaches.refl _ _, Reaches.refl _ _⟩
  exact both.2

/-- What the destination opened while it walked a history of the source is what
the source holds. -/
theorem Carried.opened {ls : Lifestream} {source dest start : Device} {id older : ObjectId}
    {object : Object} (carried : Carried ls source dest start)
    (whole : ∀ id, source.has id = true → start.has id = true) (alike : Alike ls source dest)
    (reads : HistoryReads ls start id) (path : Ancestor ls start older id)
    (held : ls.contents source older = some object) : ls.contents start older = some object := by
  rcases carried.contents_of_source whole alike held with same | ⟨here, bad⟩
  · exact same
  · obtain ⟨other, good⟩ := reads.opens path (whole older (contents_present held))
    rw [carried.contents_of_dest here, bad] at good
    cases good

/-- A sync there and one back leave two stores with the same objects and, but
for diverged histories, the same refs. -/
theorem two_way_sync_converges (ls : Lifestream) (a b : Device) (first second : SyncReport)
    (forth back : Device × Device) (alike : Alike ls a b) (aRead : HistoriesRead ls a)
    (bRead : HistoriesRead ls b) (ran : syncStores ls (a, b) = .ok first forth)
    (again : syncStores ls (forth.2, forth.1) = .ok second back) :
    (∀ id, back.2.has id = back.1.has id) ∧
      ∀ name, Converged ls a b back.2 back.1 name := by
  obtain ⟨source, b'⟩ := forth
  obtain ⟨source', a'⟩ := back
  obtain ⟨kept, start, refs, carried, whole, read, moved⟩ := synced_of_ok ran
  obtain ⟨kept', start', refs', carried', whole', read', moved'⟩ := synced_of_ok again
  simp only at kept kept' carried carried' whole whole' read read' moved moved' ⊢
  subst source source'
  have readable : ∀ name, start.unreadableRef name = none := by
    rw [carried.advances.unreadableRef]
    exact bRead.readableRef
  have readable' : ∀ name, start'.unreadableRef name = none := by
    rw [carried'.advances.unreadableRef]
    exact aRead.readableRef
  have held : ∀ id, b'.has id = start.has id := by
    intro id
    rw [Device.has, moved.only.objects, Device.has]
  have held' : ∀ id, a'.has id = start'.has id := by
    intro id
    rw [Device.has, moved'.only.objects, Device.has]
  have graph : ∀ id, ls.contents b' id = ls.contents start id := by
    intro id
    rw [contents, moved.only.objects, contents]
  constructor
  · intro id
    rw [held' id, carried'.has whole' id, held id, carried.has whole id]
    cases a.has id <;> cases b.has id <;> rfl
  · intro name
    obtain ⟨target, found⟩ := read_refs_total a refs read name
    cases target with
    | none =>
        have unmoved : b'.getRef name = b.getRef name := by
          rw [← carried.get_ref name]
          apply moved.only.get_ref
          apply moved.others
          intro member
          obtain ⟨⟨_, id⟩, among, rfl⟩ := List.mem_map.mp member
          rw [(read_refs_mem a refs read _ id).mp among] at found
          cases found
        obtain ⟨other, there⟩ := read_refs_total b' refs' read' name
        refine .inl ⟨other, ?_, there⟩
        have origin : start'.getRef name = .ok none := (carried'.get_ref name).trans found
        cases other with
        | none =>
            rw [← origin]
            apply moved'.only.get_ref
            apply moved'.others
            intro member
            obtain ⟨⟨_, id⟩, among, rfl⟩ := List.mem_map.mp member
            rw [(read_refs_mem b' refs' read' _ id).mp among] at there
            cases there
        | some right =>
            have meets : Meets ls start' name right .set := origin
            exact moved'.get_ref readable' ((read_refs_mem b' refs' read' name right).mpr there) meets
    | some left =>
        have member := (read_refs_mem a refs read name left).mpr found
        obtain ⟨fate, meets⟩ := moved.met name left member
        have now := moved.get_ref readable member meets
        have origin : start'.getRef name = .ok (some left) := (carried'.get_ref name).trans found
        have follows : b'.getRef name = .ok (some left) → Converged ls a b a' b' name := by
          intro there
          have meets : Meets ls start' name left .same := origin
          have back := moved'.get_ref readable' ((read_refs_mem b' refs' read' name left).mpr there)
            meets
          exact .inl ⟨some left, back.trans origin, there⟩
        cases fate with
        | set | advanced => exact follows now
        | same => exact follows (now.trans meets)
        | conflicted =>
            obtain ⟨right, there, differs, apart, reads⟩ := meets
            have stays : b'.getRef name = .ok (some right) := now.trans there
            have member' := (read_refs_mem b' refs' read' name right).mpr stays
            obtain ⟨fate', meets'⟩ := moved'.met name right member'
            have now' := moved'.get_ref readable' member' meets'
            cases fate' with
            | set =>
                rw [Meets, origin] at meets'
                cases meets'
            | same =>
                rw [Meets, origin] at meets'
                cases meets'
                exact absurd rfl differs
            | advanced => exact .inl ⟨some right, now', stays⟩
            | conflicted =>
                obtain ⟨old, found', _, apart', reads'⟩ := meets'
                rw [origin] at found'
                cases found'
                have home : b.getRef name = .ok (some right) := (carried.get_ref name).symm.trans there
                have aKept : ∀ older object, ls.contents a older = some object →
                    ls.contents start' older = some object := by
                  intro older object opens
                  rw [carried'.contents_of_dest (contents_present opens)]
                  exact opens
                have bKept : ∀ older object, ls.contents b older = some object →
                    ls.contents start older = some object := by
                  intro older object opens
                  rw [carried.contents_of_dest (contents_present opens)]
                  exact opens
                have alike' : Alike ls b' a := by
                  intro id record record' plaintext other here
                  rw [moved.only.objects] at here
                  exact carried.alike alike id record record' plaintext other here
                have aApart : ¬Ancestor ls start' right left := by
                  intro path
                  apply apart
                  apply Ancestor.elsewhere path (aRead.whole name left · found) aKept
                  exact fun older object athere opens =>
                    carried.opened whole alike reads athere opens
                have bApart : ¬Ancestor ls start left right := by
                  intro path
                  apply apart'
                  apply Ancestor.elsewhere path (bRead.whole name right · home) bKept
                  intro older object athere opens
                  apply carried'.opened whole' alike' reads' athere
                  rw [graph older]
                  exact bKept older object opens
                refine .inr ⟨left, right, found, now'.trans origin, home, stays, ?_⟩
                intro device either
                simp only [List.mem_cons, List.not_mem_nil, or_false] at either
                rcases either with rfl | rfl
                · rw [Ancestor, Ancestor, moved'.only.parents_of ls]
                  exact ⟨apart', aApart⟩
                · rw [Ancestor, Ancestor, moved.only.parents_of ls]
                  exact ⟨bApart, apart⟩

theorem committed_histories (labels : List String)
    (whole : ∀ name target, (Device.committed labels).getRef name = .ok (some target) →
      Whole sampleStore (Device.committed labels) target) :
    HistoriesRead sampleStore (Device.committed labels) where
  readableRef := (committed_healthy labels).unreadableRef
  whole name target older found path :=
    whole name target found older (path.imp fun id _ => parents_are_edges sampleStore _ id)

/-- Two stores whose second commits differ keep each its own. -/
theorem diverged_commits_converge : ∃ first second forth back,
    syncStores sampleStore (Device.committed ["one", "two"], Device.committed ["one", "three"]) =
      .ok first forth ∧ syncStores sampleStore (forth.2, forth.1) = .ok second back ∧
    (∀ id, back.2.has id = back.1.has id) ∧ ∀ name, Converged sampleStore
      (Device.committed ["one", "two"]) (Device.committed ["one", "three"]) back.2 back.1 name := by
  obtain ⟨first, forth, ran⟩ := of_is_ok (syncStores sampleStore
    (Device.committed ["one", "two"], Device.committed ["one", "three"])) (by decide +kernel)
  have left : forth = finalState (syncStores sampleStore
      (Device.committed ["one", "two"], Device.committed ["one", "three"])) := by
    rw [ran]
    rfl
  obtain ⟨second, back, again⟩ := of_is_ok (syncStores sampleStore
    (forth.2, forth.1)) (by rw [left]; decide +kernel)
  refine ⟨first, second, forth, back, ran, again, ?_⟩
  exact two_way_sync_converges sampleStore _ _ first second forth back
    (alike_of_shared sampleStore (by decide +kernel))
    (committed_histories _ two_commits_whole) (committed_histories _ fun _ _ found => LinksClosed.whole
      (by decide +kernel) found) ran again

end HorizonOs.Constellation
