import HorizonOs.Lifestream.Gc

/-!
# Collection beside a writer

One collection and one writer on the same disk, a call at a time in any order.
The writer puts objects that lead only to what it has put or to what a ref
leads to, and sets refs to what it has put; a put of something already stored
returns without writing. What the writer holds stays safe as long as nothing it
puts is on its way to being swept.
-/

namespace HorizonOs.Lifestream

open HorizonOs.Lib.ByteCodec HorizonOs.Lib.Text HorizonOs.Lib.Runs HorizonOs.Lib.Programs
  HorizonOs.Lib.Search

set_option autoImplicit false

/-! ## The two parties -/

/-- The disk, and two history variables: the ids the writer's puts have
answered, and those the collector has listed and not deleted since. -/
structure Shared where
  device : Device
  put : List ObjectId
  awaiting : Option (List ObjectId)

inductive Collector where
  | waiting
  /-- The roots it started from and the calls it has left. -/
  | running (roots : List ObjectId) (rest : StoreProgram Nat)
  | finished

structure Race where
  shared : Shared
  collector : Collector

def sharedWorld (ls : Lifestream) : World StoreCall StoreReply Error Shared
  | .get id => fun shared => .ok (ls.get shared.device id) shared
  | .listIds => fun shared =>
      .ok shared.device.listIds { shared with awaiting := some shared.device.listIds }
  | .delete id => fun shared =>
      match delete id shared.device with
      | .ok _ device =>
          .ok () { shared with device, awaiting := shared.awaiting.map (·.filter (· ≠ id)) }
      | .error error device => .error error { shared with device }

/-- Whose turn it is, and what the writer does with its turn. -/
inductive Turn where
  | start
  | collect
  | put (object : Object)
  | setRef (name : String) (id : ObjectId)

/-- The collector reads the refs and sets out from their targets. -/
def startCollector (race : Race) : Race :=
  match race.collector, race.shared.device.readRefs with
  | .waiting, .ok refs =>
      let roots := refs.map Prod.snd
      { race with collector := .running roots (gcProgram roots) }
  | _, _ => race

/-- The collector's next call; one that fails is its last. -/
def collect (ls : Lifestream) (race : Race) : Race :=
  match race.collector with
  | .running roots (.call request next) =>
      match sharedWorld ls request race.shared with
      | .ok reply shared => ⟨shared, .running roots (next reply)⟩
      | .error _ shared => ⟨shared, .finished⟩
  | .running _ (.done _) => { race with collector := .finished }
  | _ => race

def writerPut (ls : Lifestream) (object : Object) (shared : Shared) : Shared :=
  match ls.put object shared.device with
  | .ok id device => { shared with device, put := id :: shared.put }
  | .error _ device => { shared with device }

def raceStep (ls : Lifestream) (race : Race) : Turn → Race
  | .start => startCollector race
  | .collect => collect ls race
  | .put object => { race with shared := writerPut ls object race.shared }
  | .setRef name id =>
      { race with shared :=
          { race.shared with device := finalState (setRef name id race.shared.device) } }

/-! ## What the writer keeps to -/

/-- Something that was put, or a ref, leads to this id. -/
def Held (ls : Lifestream) (shared : Shared) (id : ObjectId) : Prop :=
  ∃ root, (root ∈ shared.put ∨ ∃ name, shared.device.getRef name = .ok (some root)) ∧
    Reaches (ls.edges shared.device) root id

/-- The writer links what it puts only to what is held, and sets refs to what it put. -/
def Turn.Proper (ls : Lifestream) (race : Race) : Turn → Prop
  | .put object => object.Fits ∧ ∀ link ∈ object.links, Held ls race.shared link
  | .setRef _ id => id ∈ race.shared.put
  | _ => True

/-- Nothing the writer puts is on its way to being swept: when collection starts
a ref leads to all that was put, and what is put while it runs either lies within
reach of its roots, or comes after its listing and is not, or no more, on it. -/
def Turn.Timely (ls : Lifestream) (race : Race) : Turn → Prop
  | .start => ∀ id ∈ race.shared.put, ∃ name root,
      race.shared.device.getRef name = .ok (some root) ∧
        Reaches (ls.edges race.shared.device) root id
  | .put object =>
      match race.collector with
      | .running roots _ =>
          ReachedFrom (ls.edges race.shared.device) roots (ls.store.idOf object.encode) ∨
            ∃ listed, race.shared.awaiting = some listed ∧
              ls.store.idOf object.encode ∉ listed
      | _ => True
  | _ => True

/-! ## What collection does meanwhile -/

/-- What the roots led to when collection set out is present and unchanged. -/
def InPlace (ls : Lifestream) (graph : ObjectId → List ObjectId) (roots : List ObjectId)
    (device : Device) : Prop :=
  ∀ id, ReachedFrom graph roots id → device.has id = true ∧ ls.edges device id = graph id

/-- The terms collection runs on: others only add to the disk, and it deletes
only what it has listed and the roots did not lead to. -/
def raceTerms (ls : Lifestream) (graph : ObjectId → List ObjectId) (roots : List ObjectId) :
    Terms StoreCall StoreReply Error Shared where
  world := sharedWorld ls
  rely before after :=
    after.awaiting = before.awaiting ∧ after.device.unreadable = before.device.unreadable ∧
      ∀ id record, before.device.objects.lookup id = some record →
        after.device.objects.lookup id = some record
  duty
    | .get _, _ => True
    | .listIds, state => state.awaiting = none
    | .delete id, state =>
        ¬ReachedFrom graph roots id ∧ ∃ listed, state.awaiting = some listed ∧ id ∈ listed
  fault _ _ := True
  rely_refl _ := ⟨rfl, rfl, fun _ _ found => found⟩
  rely_trans _ _ _ near far :=
    ⟨far.1.trans near.1, far.2.1.trans near.2.1,
      fun id record found => far.2.2 id record (near.2.2 id record found)⟩

theorem InPlace.grow {ls : Lifestream} {graph : ObjectId → List ObjectId}
    {roots : List ObjectId} {before after : Device} (place : InPlace ls graph roots before)
    (kept : ∀ id record, before.objects.lookup id = some record →
      after.objects.lookup id = some record) : InPlace ls graph roots after := by
  intro id reached
  obtain ⟨present, same⟩ := place id reached
  have held := lookup_kept present kept
  constructor
  · rw [Device.has, held]
    exact present
  · rw [edges_congr ls held]
    exact same

/-- The sweep halfway: every id ahead was listed and still awaits its turn. -/
def Awaits (behind ahead : List ObjectId) (shared : Shared) : Prop :=
  (behind ++ ahead).Nodup ∧ ∃ listed, shared.awaiting = some listed ∧ ∀ id ∈ ahead, id ∈ listed

theorem Awaits.pass {behind ahead : List ObjectId} {shared : Shared} {id : ObjectId}
    (awaits : Awaits behind (id :: ahead) shared) : Awaits (behind ++ [id]) ahead shared := by
  obtain ⟨distinct, listed, same, ahead⟩ := awaits
  constructor
  · rwa [List.append_assoc, List.singleton_append]
  · exact ⟨listed, same, fun other member => ahead other (List.mem_cons_of_mem _ member)⟩

theorem safe_race_sweep (ls : Lifestream) (graph : ObjectId → List ObjectId)
    (roots live ids : List ObjectId) (exact_live : ∀ id, id ∈ live ↔ ReachedFrom graph roots id)
    (shared : Shared) (awaits : Awaits [] ids shared) :
    (List.foldlM (sweepOne live) 0 ids : StoreProgram Nat).Safe (raceTerms ls graph roots)
      (fun _ _ => True) shared := by
  have swept : (List.foldlM (sweepOne live) 0 ids : StoreProgram Nat).Safe
      (raceTerms ls graph roots) (fun _ later => Awaits ([] ++ ids) [] later) shared := by
    refine safe_fold (sweepOne live) (fun behind ahead _ later => Awaits behind ahead later)
      ?step ?steady [] ids 0 shared awaits
    case step =>
      intro behind id ahead removed state halfway
      unfold sweepOne
      split
      case isTrue alive =>
        rintro later ⟨same, _⟩
        obtain ⟨distinct, listed, some, inside⟩ := halfway.pass
        exact ⟨distinct, listed, same.trans some, inside⟩
      case isFalse dead =>
        apply Program.Safe.ask
        case owed =>
          rintro later ⟨same, _⟩
          obtain ⟨_, listed, some, inside⟩ := halfway
          exact ⟨fun reached => dead ((exact_live id).mpr reached), listed, same.trans some,
            inside id List.mem_cons_self⟩
        case answers =>
          rintro later reply after ⟨same, _⟩ answer end' ⟨kept, _⟩
          obtain ⟨distinct, listed, some, inside⟩ := halfway.pass
          have fresh : id ∉ ahead := by
            intro member
            rw [List.append_assoc, List.singleton_append] at distinct
            exact (List.nodup_cons.mp (List.nodup_append.mp distinct).2.1).1 member
          simp only [raceTerms, sharedWorld] at answer
          split at answer
          · cases answer
            refine ⟨distinct, listed.filter (· ≠ id), ?_, ?_⟩
            · rw [kept, same, some]
              rfl
            · intro other member
              have different : other ≠ id := fun equal => fresh (equal ▸ member)
              exact List.mem_filter.mpr ⟨inside other member, by simpa using different⟩
          · cases answer
        case fails => exact fun _ _ _ _ _ => trivial
    case steady =>
      rintro behind ahead removed state later ⟨distinct, listed, some, inside⟩ ⟨same, _⟩
      exact ⟨distinct, listed, same.trans some, inside⟩
  exact swept.imp fun _ _ _ => trivial

/-- Collection keeps to its terms whatever the writer does between its calls. -/
theorem safe_race_gc (ls : Lifestream) (graph : ObjectId → List ObjectId)
    (roots : List ObjectId) (shared : Shared) (place : InPlace ls graph roots shared.device)
    (readable : ∀ id, shared.device.unreadable id = none) (unlisted : shared.awaiting = none) :
    (gcProgram roots).Safe (raceTerms ls graph roots) (fun _ _ => True) shared := by
  unfold gcProgram
  apply Program.Safe.bind
  apply Program.Safe.imp
  · apply safe_mark (raceTerms ls graph roots) graph roots (fun state =>
      InPlace ls graph roots state.device ∧ (∀ id, state.device.unreadable id = none) ∧
        state.awaiting = none)
    case steady =>
      rintro state later ⟨inPlace, reads, none⟩ ⟨same, outlook, kept⟩
      exact ⟨inPlace.grow kept, fun id => by rw [outlook]; exact reads id, same.trans none⟩
    case reads =>
      rintro state id ⟨inPlace, reads, none⟩ reached
      refine ⟨trivial, ls.get state.device id, state, rfl, ?_, inPlace, reads, none⟩
      rw [links_of_get ls state.device id (reads id)]
      exact (inPlace id reached).2
    case start => exact ⟨place, readable, unlisted⟩
  · rintro live later ⟨exact_live, _, _, none⟩
    apply Program.Safe.ask
    case owed =>
      rintro state ⟨same, _⟩
      exact same.trans none
    case answers =>
      rintro state reply after _ answer
      cases answer
      apply safe_race_sweep ls graph roots live _ exact_live
      exact ⟨AList.keys_nodup state.device.objects, state.device.listIds, rfl,
        fun _ member => member⟩
    case fails => exact fun _ _ _ _ _ => trivial

/-! ## The invariant -/

/-- The id lies within reach of the roots, or is not, or no more, to be swept. -/
def Spared (graph : ObjectId → List ObjectId) (roots : List ObjectId) (shared : Shared)
    (id : ObjectId) : Prop :=
  ReachedFrom graph roots id ∨ ∃ listed, shared.awaiting = some listed ∧ id ∉ listed

/-- What holds while collection runs beside the writer. -/
structure Collecting (ls : Lifestream) (shared : Shared) (roots : List ObjectId)
    (rest : StoreProgram Nat) (graph : ObjectId → List ObjectId) : Prop where
  place : InPlace ls graph roots shared.device
  spared : ∀ id, Held ls shared id → Spared graph roots shared id
  safe : rest.Safe (raceTerms ls graph roots) (fun _ _ => True) shared

structure Orderly (ls : Lifestream) (race : Race) : Prop where
  sound : Sound ls.store race.shared.device
  readable : ∀ id, race.shared.device.unreadable id = none
  present : ∀ id, Held ls race.shared id → race.shared.device.has id = true
  unlisted : race.collector = .waiting → race.shared.awaiting = none
  collecting : ∀ roots rest, race.collector = .running roots rest →
    ∃ graph, Collecting ls race.shared roots rest graph

/-- Less is held where fewer roots lead along fewer edges. -/
theorem Held.imp {ls : Lifestream} {before after : Shared} {id : ObjectId}
    (held : Held ls before id) (edges : ∀ id, ls.edges before.device id ⊆ ls.edges after.device id)
    (roots : ∀ root, (root ∈ before.put ∨ ∃ name, before.device.getRef name = .ok (some root)) →
      (root ∈ after.put ∨ ∃ name, after.device.getRef name = .ok (some root))) :
    Held ls after id := by
  obtain ⟨root, rooted, path⟩ := held
  exact ⟨root, roots root rooted, path.imp fun other _ => edges other⟩

theorem Held.edge {ls : Lifestream} {shared : Shared} {id next : ObjectId}
    (held : Held ls shared id) (leads : next ∈ ls.edges shared.device id) :
    Held ls shared next := by
  obtain ⟨root, rooted, path⟩ := held
  exact ⟨root, rooted, path.edge leads⟩

/-! ## One turn -/

theorem orderly_start (ls : Lifestream) (race : Race) (orderly : Orderly ls race)
    (timely : Turn.start.Timely ls race) : Orderly ls (startCollector race) := by
  unfold startCollector
  split
  case h_2 => exact orderly
  case h_1 refs waiting read =>
    have rooted : ∀ root, root ∈ refs.map Prod.snd ↔
        ∃ name, race.shared.device.getRef name = .ok (some root) := by
      intro root
      rw [List.mem_map]
      constructor
      · rintro ⟨⟨name, id⟩, member, rfl⟩
        exact ⟨name, (read_refs_mem _ refs read name id).mp member⟩
      · rintro ⟨name, named⟩
        exact ⟨(name, root), (read_refs_mem _ refs read name root).mpr named, rfl⟩
    have place : InPlace ls (ls.edges race.shared.device) (refs.map Prod.snd)
        race.shared.device := by
      rintro id ⟨root, member, path⟩
      exact ⟨orderly.present id ⟨root, .inr ((rooted root).mp member), path⟩, rfl⟩
    refine ⟨orderly.sound, orderly.readable, orderly.present, (fun same => by cases same), ?_⟩
    rintro roots rest same
    cases same
    refine ⟨ls.edges race.shared.device, place, ?_,
      safe_race_gc ls _ _ race.shared place orderly.readable (orderly.unlisted waiting)⟩
    rintro id ⟨root, member | named, path⟩
    · obtain ⟨name, target, named, leads⟩ := timely root member
      exact .inl ⟨target, (rooted target).mpr ⟨name, named⟩, leads.trans path⟩
    · exact .inl ⟨root, (rooted root).mpr named, path⟩

theorem edges_without (ls : Lifestream) {id : ObjectId} {before after : Device}
    (without : Without id before after) (other : ObjectId) :
    ls.edges after other ⊆ ls.edges before other := by
  by_cases same : other = id
  · subst same
    simp [edges, contents, without.gone]
  · rw [edges_congr ls (without.others other same)]
    exact List.Subset.refl _

theorem Sound.without {store : ObjectStore} {id : ObjectId} {before after : Device}
    (sound : Sound store before) (without : Without id before after) : Sound store after := by
  intro other record found
  have different : other ≠ id := by
    rintro rfl
    rw [without.gone] at found
    cases found
  rw [without.others other different] at found
  rw [without.written]
  exact sound other record found

theorem Sound.untouched {store : ObjectStore} {before after : Device}
    (sound : Sound store before) (same : Untouched before after) : Sound store after := by
  intro other record found
  rw [same.objects] at found
  rw [same.written]
  exact sound other record found

/-- A deletion within the terms of collection takes nothing that is held. -/
theorem orderly_delete (ls : Lifestream) (shared : Shared) (roots : List ObjectId)
    (rest next : StoreProgram Nat) (graph : ObjectId → List ObjectId) (id : ObjectId)
    (device : Device) (listed : List ObjectId) (without : Without id shared.device device)
    (orderly : Orderly ls ⟨shared, .running roots rest⟩)
    (collecting : Collecting ls shared roots rest graph)
    (unreached : ¬ReachedFrom graph roots id) (awaited : shared.awaiting = some listed)
    (inside : id ∈ listed)
    (safe : next.Safe (raceTerms ls graph roots) (fun _ _ => True)
      { shared with device, awaiting := some (listed.filter (· ≠ id)) }) :
    Orderly ls ⟨{ shared with device, awaiting := some (listed.filter (· ≠ id)) },
      .running roots next⟩ := by
  have shrinks : ∀ other, Held ls { shared with device, awaiting := some (listed.filter (· ≠ id)) }
      other → Held ls shared other := by
    intro other held
    apply held.imp (edges_without ls without)
    rintro root (member | ⟨name, named⟩)
    · exact .inl member
    · right
      use name
      rwa [get_ref_congr (by rw [without.refs]) without.unreadableRef] at named
  have unheld : ¬Held ls shared id := by
    intro held
    rcases collecting.spared id held with reached | ⟨other, same, outside⟩
    · exact unreached reached
    · rw [awaited] at same
      cases same
      exact outside inside
  constructor
  case sound => exact orderly.sound.without without
  case readable =>
    intro other
    rw [without.unreadable]
    exact orderly.readable other
  case present =>
    intro other held
    have before := shrinks other held
    have different : other ≠ id := fun same => unheld (same ▸ before)
    rw [without.has, orderly.present other before]
    simpa using different
  case unlisted => exact fun same => by cases same
  case collecting =>
    rintro roots rest same
    cases same
    refine ⟨graph, ?_, ?_, safe⟩
    · intro other reached
      have different : other ≠ id := fun same => unreached (same ▸ reached)
      obtain ⟨present, same⟩ := collecting.place other reached
      constructor
      · rw [without.has, present]
        simpa using different
      · rw [edges_congr ls (without.others other different)]
        exact same
    · intro other held
      rcases collecting.spared other (shrinks other held) with reached | ⟨before, same, outside⟩
      · exact .inl reached
      · rw [awaited] at same
        cases same
        exact .inr ⟨_, rfl, fun member => outside (List.mem_of_mem_filter member)⟩

theorem orderly_collect (ls : Lifestream) (race : Race) (orderly : Orderly ls race) :
    Orderly ls (collect ls race) := by
  have ended : ∀ shared, Orderly ls ⟨shared, race.collector⟩ → Orderly ls ⟨shared, .finished⟩ :=
    fun shared before => ⟨before.sound, before.readable, before.present,
      (fun same => by cases same), fun _ _ same => by cases same⟩
  obtain ⟨shared, collector⟩ := race
  cases collector with
  | waiting => exact orderly
  | finished => exact orderly
  | running roots rest =>
      obtain ⟨graph, collecting⟩ := orderly.collecting roots rest rfl
      cases rest with
      | done removed => exact ended shared orderly
      | call request next =>
          have owed := collecting.safe.owed
          cases request with
          | get id =>
              exact ⟨orderly.sound, orderly.readable, orderly.present, (fun same => by cases same),
                fun _ _ same => by
                  cases same
                  exact ⟨graph, collecting.place, collecting.spared,
                    collecting.safe.answered rfl⟩⟩
          | listIds =>
              refine ⟨orderly.sound, orderly.readable, orderly.present,
                (fun same => by cases same), fun _ _ same => ?_⟩
              cases same
              refine ⟨graph, collecting.place, ?_, collecting.safe.answered rfl⟩
              intro id held
              rcases collecting.spared id held with reached | ⟨listed, same, _⟩
              · exact .inl reached
              · cases owed.symm.trans same
          | delete id =>
              obtain ⟨unreached, listed, awaited, inside⟩ := owed
              change shared.awaiting = some listed at awaited
              obtain ⟨device, ⟨deleted, without⟩ | ⟨_, ⟨error, failed⟩, same⟩⟩ :=
                delete_outcome id shared.device
              · have answer : sharedWorld ls (.delete id) shared = .ok ()
                    { shared with device, awaiting := some (listed.filter (· ≠ id)) } := by
                  simp only [sharedWorld, deleted, awaited, Option.map_some]
                have next := orderly_delete ls shared roots _ (next ()) graph id device listed
                  without orderly collecting unreached awaited inside
                  (collecting.safe.answered answer)
                simpa only [collect, answer] using next
              · have answer : sharedWorld ls (.delete id) shared =
                    .error error { shared with device } := by
                  simp only [sharedWorld, failed]
                have held : ∀ other, Held ls { shared with device } other →
                    Held ls shared other := by
                  intro other held
                  apply held.imp
                  · intro other
                    have fixed : device.objects.lookup other = shared.device.objects.lookup other := by
                      rw [same.objects]
                    have kept := edges_congr ls fixed
                    exact fun next leads => kept ▸ leads
                  · rintro root (member | ⟨name, named⟩)
                    · exact .inl member
                    · right
                      use name
                      rwa [get_ref_congr (by rw [same.refs]) same.unreadableRef] at named
                simp only [collect, answer]
                refine ⟨orderly.sound.untouched same, ?_, ?_, (fun same => by cases same),
                  fun _ _ same => by cases same⟩
                · intro other
                  rw [same.unreadable]
                  exact orderly.readable other
                · intro other member
                  rw [Device.has, same.objects]
                  exact orderly.present other (held other member)

/-- While objects are only added, whatever is held is held by the same paths. -/
theorem held_of_grown {ls : Lifestream} {before after : Shared} {extra : ObjectId → Prop}
    (orderly : ∀ id, Held ls before id → before.device.has id = true)
    (kept : ∀ id record, before.device.objects.lookup id = some record →
      after.device.objects.lookup id = some record)
    (roots : ∀ root, (root ∈ after.put ∨ ∃ name, after.device.getRef name = .ok (some root)) →
      Held ls before root ∨ extra root)
    (closed : ∀ id, extra id → ∀ next ∈ ls.edges after.device id, Held ls before next ∨ extra next)
    (id : ObjectId) (held : Held ls after id) : Held ls before id ∨ extra id := by
  obtain ⟨root, rooted, path⟩ := held
  apply path.carries
  · rintro node (old | new) next leads
    · rw [edges_congr ls (lookup_kept (orderly node old) kept)] at leads
      exact .inl (old.edge leads)
    · exact closed node new next leads
  · exact roots root rooted

theorem InPlace.reached {ls : Lifestream} {graph : ObjectId → List ObjectId}
    {roots : List ObjectId} {device : Device} {id : ObjectId}
    (place : InPlace ls graph roots device) (reached : ReachedFrom (ls.edges device) roots id) :
    ReachedFrom graph roots id := by
  apply reached.carries
  · intro node below next leads
    rw [(place node below).2] at leads
    exact below.edge leads
  · exact fun root member => ReachedFrom.root member

/-- A put of the writer has put nothing, or what it was given. -/
theorem writer_put_outcome (ls : Lifestream) (object : Object) (shared : Shared)
    (fits : object.Fits) (sound : Sound ls.store shared.device)
    (free : CollisionFree ls.store (writerPut ls object shared).device) :
    ∃ after put, writerPut ls object shared = { shared with device := after, put } ∧
      Advances ls.store shared.device after ∧
      ∀ id ∈ put, id ∈ shared.put ∨
        id = ls.store.idOf object.encode ∧ ls.contents after id = some object := by
  obtain ⟨after, advances, _, ⟨success, stored⟩ | ⟨_, error, failure⟩⟩ :=
    put_outcome ls.store object.encode shared.device
  · have wrote : writerPut ls object shared = { shared with
        device := after, put := ls.store.idOf object.encode :: shared.put } := by
      simp only [writerPut, Lifestream.put, success]
    rw [wrote] at free
    refine ⟨after, _, wrote, advances, ?_⟩
    intro id member
    rcases List.mem_cons.mp member with rfl | old
    · exact .inr ⟨rfl, contents_of_holds (advances.sound sound) free ⟨fits, rfl, stored⟩⟩
    · exact .inl old
  · refine ⟨after, shared.put, ?_, advances, fun id member => .inl member⟩
    simp only [writerPut, Lifestream.put, failure]

theorem orderly_put (ls : Lifestream) (race : Race) (object : Object)
    (orderly : Orderly ls race) (proper : (Turn.put object).Proper ls race)
    (timely : (Turn.put object).Timely ls race)
    (free : CollisionFree ls.store (writerPut ls object race.shared).device) :
    Orderly ls { race with shared := writerPut ls object race.shared } := by
  obtain ⟨fits, linked⟩ := proper
  obtain ⟨after, put, same, advances, origin⟩ :=
    writer_put_outcome ls object race.shared fits orderly.sound free
  rw [same]
  let extra : ObjectId → Prop := fun id =>
    id = ls.store.idOf object.encode ∧ ls.contents after id = some object
  have grown : ∀ id, Held ls { race.shared with device := after, put } id →
      Held ls race.shared id ∨ extra id := by
    apply held_of_grown orderly.present advances.objects
    · rintro root (member | ⟨name, named⟩)
      · rcases origin root member with old | new
        · exact .inl ⟨root, .inl old, Reaches.refl _ root⟩
        · exact .inr new
      · change after.getRef name = _ at named
        rw [get_ref_congr (by rw [advances.refs]) advances.unreadableRef] at named
        exact .inl ⟨root, .inr ⟨name, named⟩, Reaches.refl _ root⟩
    · rintro id ⟨_, held⟩ next leads
      simp only [edges, held] at leads
      exact .inl (linked next leads)
  constructor
  case sound => exact advances.sound orderly.sound
  case readable =>
    intro id
    change after.unreadable id = none
    rw [advances.unreadable]
    exact orderly.readable id
  case present =>
    intro id held
    rcases grown id held with old | ⟨_, new⟩
    · exact advances.toKeeps.has (orderly.present id old)
    · exact contents_present new
  case unlisted => exact orderly.unlisted
  case collecting =>
    intro roots rest running
    obtain ⟨graph, collecting⟩ := orderly.collecting roots rest running
    refine ⟨graph, collecting.place.grow advances.objects, ?_,
      collecting.safe.stable ⟨rfl, advances.unreadable, advances.objects⟩⟩
    intro id held
    rcases grown id held with old | ⟨rfl, _⟩
    · exact collecting.spared id old
    · change race.collector = .running roots rest at running
      simp only [Turn.Timely, running] at timely
      rcases timely with reached | passed
      · exact .inl (collecting.place.reached reached)
      · exact .inr passed

theorem orderly_set_ref (ls : Lifestream) (race : Race) (name : String) (id : ObjectId)
    (orderly : Orderly ls race) (proper : (Turn.setRef name id).Proper ls race) :
    Orderly ls (raceStep ls race (.setRef name id)) := by
  obtain ⟨grows, objects, _⟩ := set_ref_keeps ls.store name id race.shared.device
  have shrinks : ∀ other, Held ls (raceStep ls race (.setRef name id)).shared other →
      Held ls race.shared other := by
    intro other held
    have fixed : ∀ node, ls.edges (finalState (setRef name id race.shared.device)) node ⊆
        ls.edges race.shared.device node := by
      intro node next leads
      have same : ls.edges (finalState (setRef name id race.shared.device)) node =
          ls.edges race.shared.device node := edges_congr ls (by rw [objects])
      exact same ▸ leads
    obtain ⟨root, member | ⟨label, named⟩, path⟩ := held
    · exact ⟨root, .inl member, path.imp fun node _ => fixed node⟩
    · have before : root ∈ race.shared.put ∨
          ∃ name, race.shared.device.getRef name = .ok (some root) := by
        rcases set_ref_targets ls.store name id race.shared.device label root named with
          old | ⟨_, rfl⟩
        · exact .inr ⟨label, old⟩
        · exact .inl proper
      exact ⟨root, before, path.imp fun node _ => fixed node⟩
  constructor
  case sound => exact grows.sound orderly.sound
  case readable =>
    intro other
    exact (congrFun grows.unreadable other).trans (orderly.readable other)
  case present => exact fun other held => grows.toKeeps.has (orderly.present other (shrinks other held))
  case unlisted => exact orderly.unlisted
  case collecting =>
    intro roots rest running
    obtain ⟨graph, collecting⟩ := orderly.collecting roots rest running
    exact ⟨graph, collecting.place.grow grows.objects,
      fun other held => collecting.spared other (shrinks other held),
      collecting.safe.stable ⟨rfl, grows.unreadable, grows.objects⟩⟩

/-- Every turn that keeps to the rules keeps what is held in place. -/
theorem orderly_step (ls : Lifestream) (race : Race) (turn : Turn) (orderly : Orderly ls race)
    (proper : turn.Proper ls race) (timely : turn.Timely ls race)
    (free : CollisionFree ls.store (raceStep ls race turn).shared.device) :
    Orderly ls (raceStep ls race turn) := by
  cases turn with
  | start => exact orderly_start ls race orderly timely
  | collect => exact orderly_collect ls race orderly
  | put object => exact orderly_put ls race object orderly proper timely free
  | setRef name id => exact orderly_set_ref ls race name id orderly proper

/-- A disk that does not collide after a turn did not before it. -/
theorem collision_free_before (ls : Lifestream) (race : Race) (turn : Turn)
    (free : CollisionFree ls.store (raceStep ls race turn).shared.device) :
    CollisionFree ls.store race.shared.device := by
  apply free.before
  cases turn with
  | start =>
      simp only [raceStep, startCollector]
      split <;> exact List.Subset.refl _
  | put object =>
      obtain ⟨after, advances, _, ⟨success, _⟩ | ⟨_, error, failure⟩⟩ :=
        put_outcome ls.store object.encode race.shared.device
      · simp only [raceStep, writerPut, Lifestream.put, success]
        exact advances.written
      · simp only [raceStep, writerPut, Lifestream.put, failure]
        exact advances.written
  | setRef name id =>
      exact (set_ref_keeps ls.store name id race.shared.device).1.written
  | collect =>
      simp only [raceStep, collect]
      split
      case h_1 roots request next running =>
        cases request with
        | get id => exact List.Subset.refl _
        | listIds => exact List.Subset.refl _
        | delete id =>
            obtain ⟨device, ⟨deleted, without⟩ | ⟨_, ⟨error, failed⟩, same⟩⟩ :=
              delete_outcome id race.shared.device
            · simp only [sharedWorld, deleted, without.written]
              exact List.Subset.refl _
            · simp only [sharedWorld, failed, same.written]
              exact List.Subset.refl _
      case h_2 => exact List.Subset.refl _
      case h_3 => exact List.Subset.refl _

/-- Whatever the order of turns, while nothing the writer puts is on its way to
being swept every ref of the disk leads only to what is there. -/
theorem refs_stay_complete_beside_gc (ls : Lifestream) (race : Race) (turns : List Turn)
    (waiting : race.collector = .waiting) (unlisted : race.shared.awaiting = none)
    (idle : race.shared.put = []) (sound : Sound ls.store race.shared.device)
    (readable : ∀ id, race.shared.device.unreadable id = none)
    (complete : ClosureComplete ls race.shared.device)
    (guarded : Guarded (raceStep ls)
      (fun race turn => turn.Proper ls race ∧ turn.Timely ls race) race turns)
    (free : CollisionFree ls.store (run (raceStep ls) race turns).shared.device) :
    ClosureComplete ls (run (raceStep ls) race turns).shared.device := by
  have start : Orderly ls race := by
    refine ⟨sound, readable, ?_, fun _ => unlisted, fun roots rest same => ?_⟩
    · rintro id ⟨root, member | ⟨name, named⟩, path⟩
      · rw [idle] at member
        cases member
      · exact complete name root named id path
    · rw [waiting] at same
      cases same
  obtain ⟨_, both⟩ := guarded_inherited (raceStep ls) _
    (fun race => CollisionFree ls.store race.shared.device) (collision_free_before ls) race turns
    guarded free
  have orderly := guarded_run_invariant (raceStep ls) _ (Orderly ls)
    (fun state turn before ⟨⟨proper, timely⟩, clear⟩ =>
      orderly_step ls state turn before proper timely clear) race turns start both
  intro name target named id path
  exact orderly.present id ⟨target, .inr ⟨name, named⟩, path⟩

/-! ## Two runs -/

/-- An empty store before either party has moved. -/
def freshRace : Race := ⟨⟨Device.fresh, [], none⟩, .waiting⟩

def sampleChunk : Object := .chunk (utf8 "data")

def sampleChunkId : ObjectId := sampleStore.store.idOf sampleChunk.encode

def Collector.isFinished : Collector → Bool
  | .finished => true
  | _ => false

theorem fresh_race_complete : ClosureComplete sampleStore freshRace.shared.device := by
  intro name target named
  simp [freshRace, Device.fresh, Device.empty, Device.getRef] at named

/-- The writer is done before collection starts. -/
theorem refs_complete_after_quiet_gc :
    ClosureComplete sampleStore (run (raceStep sampleStore) freshRace
      [.put sampleChunk, .setRef "HEAD" sampleChunkId, .start, .collect, .collect,
        .collect]).shared.device := by
  have putFirst : (raceStep sampleStore freshRace (.put sampleChunk)).shared.put =
      [sampleChunkId] := by
    decide +kernel
  have named : (raceStep sampleStore (raceStep sampleStore freshRace (.put sampleChunk))
      (.setRef "HEAD" sampleChunkId)).shared.device.getRef "HEAD" = .ok (some sampleChunkId) := by
    decide +kernel
  apply refs_stay_complete_beside_gc sampleStore freshRace _ rfl rfl rfl (fresh_sound _)
    (fun _ => rfl) fresh_race_complete
  · refine ⟨⟨⟨trivial, fun link member => ?_⟩, trivial⟩, ⟨?_, trivial⟩, ⟨trivial, ?_⟩,
      ⟨trivial, trivial⟩, ⟨trivial, trivial⟩, ⟨trivial, trivial⟩, trivial⟩
    · cases member
    · change sampleChunkId ∈ (raceStep sampleStore freshRace (.put sampleChunk)).shared.put
      rw [putFirst]
      exact List.mem_cons_self
    · intro id member
      change id ∈ (raceStep sampleStore freshRace (.put sampleChunk)).shared.put at member
      rw [putFirst, List.mem_singleton] at member
      subst member
      exact ⟨"HEAD", sampleChunkId, named, Reaches.refl _ _⟩
  · intro left leftIn right rightIn _
    have written : (run (raceStep sampleStore) freshRace
        [.put sampleChunk, .setRef "HEAD" sampleChunkId, .start, .collect, .collect,
          .collect]).shared.device.written = [sampleChunk.encode] := by
      decide +kernel
    rw [written, List.mem_singleton] at leftIn rightIn
    rw [leftIn, rightIn]

/-- Collection starts before the writer puts and sweeps after it. -/
def crossedTurns : List Turn :=
  [.start, .put sampleChunk, .collect, .collect, .collect, .setRef "HEAD" sampleChunkId]

/-- Both have finished, and the ref names what was swept. -/
theorem gc_sweeps_what_was_put :
    ¬∀ turns, Guarded (raceStep sampleStore) (fun race turn => turn.Proper sampleStore race)
        freshRace turns →
      (run (raceStep sampleStore) freshRace turns).collector.isFinished = true →
      ClosureComplete sampleStore (run (raceStep sampleStore) freshRace turns).shared.device := by
  intro claim
  have put : (run (raceStep sampleStore) freshRace
      [.start, .put sampleChunk, .collect, .collect, .collect]).shared.put = [sampleChunkId] := by
    decide +kernel
  simp only [run_cons, run_nil] at put
  have finished : (run (raceStep sampleStore) freshRace crossedTurns).collector.isFinished = true := by
    decide +kernel
  have named : (run (raceStep sampleStore) freshRace crossedTurns).shared.device.getRef "HEAD" =
      .ok (some sampleChunkId) := by
    decide +kernel
  have gone : (run (raceStep sampleStore) freshRace crossedTurns).shared.device.has
      sampleChunkId = false := by
    decide +kernel
  have proper : Guarded (raceStep sampleStore) (fun race turn => turn.Proper sampleStore race)
      freshRace crossedTurns := by
    refine ⟨trivial, ⟨trivial, fun link member => ?_⟩, trivial, trivial, trivial, ?_, trivial⟩
    · cases member
    · have member : sampleChunkId ∈ [sampleChunkId] := List.mem_cons_self
      rwa [← put] at member
  have complete := claim crossedTurns proper finished "HEAD" sampleChunkId named sampleChunkId
    (Reaches.refl _ _)
  rw [gone] at complete
  cases complete

end HorizonOs.Lifestream
