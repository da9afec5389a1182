import HorizonOs.Lifestream.Graph
import HorizonOs.Lifestream.Sample

/-!
# Mark and sweep

Collection as the calls it makes on a store, one after the other: it reads its
way from the roots, lists what there is and deletes what it did not come by. An
object it cannot read counts as one that points at nothing.
-/

namespace HorizonOs.Lifestream

open HorizonOs.Lib.ByteCodec HorizonOs.Lib.Text HorizonOs.Lib.Runs HorizonOs.Lib.Programs
  HorizonOs.Lib.Search

set_option autoImplicit false

/-- What collection asks of the store it works on. -/
inductive StoreCall where
  | get (id : ObjectId)
  | listIds
  | delete (id : ObjectId)
  deriving DecidableEq

/-- A failed read is an answer: collection goes on after it. -/
@[reducible] def StoreReply : StoreCall → Type
  | .get _ => Except Error Object
  | .listIds => List ObjectId
  | .delete _ => Unit

abbrev StoreProgram := Program StoreCall StoreReply

def markVisit (live : List ObjectId) (id : ObjectId) : StoreProgram (List ObjectId) := do
  -- a stale root may point at a missing object, just skip it
  let object ← ask (StoreCall.get id)
  pure ((readLinks object).filter (· ∉ live))

/-- The ids that are live: the last of the roots is popped first. -/
def mark (roots : List ObjectId) : StoreProgram (List ObjectId) := do
  let (_, live) ← explore (fun _ => false) markVisit (idCount + 1) [] roots.reverse
  pure live

def sweepOne (live : List ObjectId) (removed : Nat) (id : ObjectId) : StoreProgram Nat :=
  if id ∈ live then pure removed
  else do
    let _ ← ask (StoreCall.delete id)
    pure (removed + 1)

/-- `Lifestream::gc`: keep everything reachable from roots, delete the rest. -/
def gcProgram (roots : List ObjectId) : StoreProgram Nat := do
  let live ← mark roots
  let ids ← ask StoreCall.listIds
  List.foldlM (sweepOne live) 0 ids

def storeWorld (ls : Lifestream) : World StoreCall StoreReply Error Device
  | .get id => fun device => .ok (ls.get device id) device
  | .listIds => fun device => .ok device.listIds device
  | .delete id => delete id

def gc (ls : Lifestream) (roots : List ObjectId) : StoreM Nat :=
  (gcProgram roots).run (storeWorld ls)

/-! ## Marking -/

/-- Marking comes by exactly what the roots lead to, on any terms under which
reading an object that was come by answers with the edges of a fixed graph. -/
theorem safe_mark {σ : Type} (terms : Terms StoreCall StoreReply Error σ)
    (graph : ObjectId → List ObjectId) (roots : List ObjectId) (holds : σ → Prop)
    (steady : ∀ state later, holds state → terms.rely state later → holds later)
    (reads : ∀ state id, holds state → ReachedFrom graph roots id →
      terms.duty (.get id) state ∧ ∃ reply after, terms.world (.get id) state = .ok reply after ∧
        readLinks reply = graph id ∧ holds after)
    (state : σ) (start : holds state) :
    (mark roots).Safe terms
      (fun live later => (∀ id, id ∈ live ↔ ReachedFrom graph roots id) ∧ holds later) state := by
  have reversed : ∀ id, ReachedFrom graph roots.reverse id ↔ ReachedFrom graph roots id := by
    intro id
    simp only [ReachedFrom, List.mem_reverse]
  unfold mark
  apply Program.Safe.bind
  apply safe_explore (fun _ => false) markVisit idCount ids_few
    (fun seen stack later => Frontier graph roots.reverse seen stack ∧ holds later)
  case ends =>
    rintro seen later last ⟨frontier, held⟩ moved last' moved'
    apply And.intro
    · exact fun id => (frontier.finish id).trans (reversed id)
    · exact steady _ _ (steady _ _ held moved) moved'
  case stops => exact fun _ _ _ _ _ _ stopped => absurd stopped Bool.false_ne_true
  case passes => exact fun seen node rest later ⟨frontier, held⟩ old => ⟨frontier.pass old, held⟩
  case visits =>
    rintro seen node rest later ⟨frontier, held⟩ _ new last moved
    have here := frontier.stacked node List.mem_cons_self
    obtain ⟨owed, reply, after, answered, links, kept⟩ :=
      reads last node (steady _ _ held moved) ((reversed node).mp here)
    apply And.intro owed
    rw [answered]
    intro end' last'
    apply And.intro
    · apply frontier.visit
      · intro next member
        rw [links] at member
        exact List.mem_of_mem_filter member
      · intro next leads
        by_cases old : next ∈ node :: seen
        · exact .inl old
        · right
          rw [links]
          exact List.mem_filter.mpr ⟨leads, by simpa using old⟩
    · exact steady _ _ kept last'
  case distinct => exact List.nodup_nil
  case enough =>
    rw [List.length_nil]
    omega
  case holds => exact ⟨Frontier.start graph roots.reverse, start⟩

/-! ## Collection on its own -/

/-- The graph as this handle reads it. -/
def readEdges (ls : Lifestream) (device : Device) (id : ObjectId) : List ObjectId :=
  readLinks (ls.get device id)

/-- The disk has lost one object and nothing else. -/
structure Without (id : ObjectId) (before after : Device) : Prop where
  gone : after.objects.lookup id = none
  others : ∀ other, other ≠ id → after.objects.lookup other = before.objects.lookup other
  refs : after.refs = before.refs
  unreadable : after.unreadable = before.unreadable
  unreadableRef : after.unreadableRef = before.unreadableRef
  written : after.written = before.written

theorem Without.has {id : ObjectId} {before after : Device} (without : Without id before after)
    (other : ObjectId) : after.has other = (before.has other && decide (other ≠ id)) := by
  unfold Device.has
  by_cases same : other = id
  · subst same
    simp [without.gone]
  · simp [without.others other same, same]

theorem delete_outcome (id : ObjectId) (device : Device) :
    ∃ after, (delete id device = .ok () after ∧ Without id device after) ∨
      device.faults ≠ [] ∧ (∃ error, delete id device = .error error after) ∧
        Untouched device after := by
  unfold delete
  simp only [bind_apply, theDevice]
  split
  case isTrue present =>
    obtain ⟨between, same, called | ⟨faulty, message, called⟩⟩ := os_call_outcome device
    · refine ⟨{ between with objects := between.objects.erase id }, .inl ⟨?_, ?_⟩⟩
      · rw [bind_apply, called]
        rfl
      · exact
          { gone := AList.lookup_erase id between.objects
            others := fun other different => by
              rw [← same.objects]
              exact AList.lookup_erase_ne different
            refs := same.refs
            unreadable := same.unreadable
            unreadableRef := same.unreadableRef
            written := same.written }
    · refine ⟨between, .inr ⟨faulty, ⟨.io message, ?_⟩, same⟩⟩
      rw [bind_apply, called]
  case isFalse absent =>
    refine ⟨device, .inl ⟨rfl, ?_⟩⟩
    have missing : device.objects.lookup id = none := by
      simpa [Device.has] using absent
    exact ⟨missing, fun _ _ => rfl, rfl, rfl, rfl, rfl⟩

/-- The disk has kept what is alive of what is behind a sweep, and all the rest. -/
def Swept (alive : ObjectId → Prop) (behind : List ObjectId) (before after : Device) : Prop :=
  ∀ id, after.has id = true ↔ before.has id = true ∧ (id ∈ behind → alive id)

/-- Nothing alive was taken from the disk. -/
def SparesAlive (alive : ObjectId → Prop) (before after : Device) : Prop :=
  ∀ id, before.has id = true → after.has id = false → ¬alive id

theorem Swept.spares {alive : ObjectId → Prop} {behind : List ObjectId} {before after : Device}
    (swept : Swept alive behind before after) : SparesAlive alive before after := by
  intro id present absent lives
  have kept := (swept id).mpr ⟨present, fun _ => lives⟩
  rw [absent] at kept
  cases kept

theorem Swept.delete {alive : ObjectId → Prop} {behind : List ObjectId}
    {before during after : Device} {id : ObjectId} (swept : Swept alive behind before during)
    (dead : ¬alive id) (without : Without id during after) :
    Swept alive (behind ++ [id]) before after := by
  intro other
  rw [without.has, Bool.and_eq_true, decide_eq_true_eq, swept other, List.mem_append, List.mem_singleton]
  constructor
  · rintro ⟨⟨present, spared⟩, different⟩
    exact ⟨present, fun passed => passed.elim spared fun equal => absurd equal different⟩
  · rintro ⟨present, spared⟩
    refine ⟨⟨present, fun passed => spared (.inl passed)⟩, ?_⟩
    rintro rfl
    exact dead (spared (.inr rfl))

theorem Swept.pass {alive : ObjectId → Prop} {behind : List ObjectId} {before after : Device}
    {id : ObjectId} (swept : Swept alive behind before after) (lives : alive id) :
    Swept alive (behind ++ [id]) before after := by
  intro other
  rw [swept other, List.mem_append, List.mem_singleton]
  constructor
  · rintro ⟨present, spared⟩
    exact ⟨present, fun passed => passed.elim spared fun same => same ▸ lives⟩
  · rintro ⟨present, spared⟩
    exact ⟨present, fun passed => spared (.inl passed)⟩

theorem safe_sweep (ls : Lifestream) (alive : ObjectId → Prop) (live ids : List ObjectId)
    (exact_live : ∀ id, id ∈ live ↔ alive id) (before : Device) :
    (List.foldlM (sweepOne live) 0 ids : StoreProgram Nat).Safe
      (Terms.alone (storeWorld ls) (fun _ _ => True) fun _ => SparesAlive alive before)
      (fun _ => Swept alive ids before) before := by
  refine safe_fold (sweepOne live) (fun behind _ _ after => Swept alive behind before after)
    ?step ?steady [] ids 0 before ?holds
  case step =>
    intro behind id ahead removed after swept
    unfold sweepOne
    split
    case isTrue kept =>
      rintro later rfl
      exact swept.pass ((exact_live id).mp kept)
    case isFalse dead =>
      apply Program.Safe.ask
      case owed => exact fun _ _ => trivial
      case answers =>
        rintro later reply last rfl answer
        obtain ⟨end', ⟨deleted, taken⟩ | ⟨_, ⟨error, failed⟩, _⟩⟩ := delete_outcome id later
        · cases deleted.symm.trans answer
          rintro end' rfl
          exact swept.delete (fun lives => dead ((exact_live id).mpr lives)) taken
        · cases failed.symm.trans answer
      case fails =>
        rintro later error last rfl answer
        obtain ⟨end', ⟨deleted, _⟩ | ⟨_, ⟨error, failed⟩, same⟩⟩ := delete_outcome id later
        · cases deleted.symm.trans answer
        · cases failed.symm.trans answer
          intro other present absent
          rw [Device.has, same.objects] at absent
          exact swept.spares other present absent
  case steady =>
    rintro behind ahead removed after later swept rfl
    exact swept
  case holds =>
    intro id
    simp

/-- Collection on its own takes what the roots do not lead to, as the handle
reads the graph; one that fails halfway has taken nothing else. -/
theorem safe_gc (ls : Lifestream) (roots : List ObjectId) (device : Device) :
    (gcProgram roots).Safe
      (Terms.alone (storeWorld ls) (fun _ _ => True)
        fun _ => SparesAlive (ReachedFrom (ls.readEdges device) roots) device)
      (fun _ => Swept (ReachedFrom (ls.readEdges device) roots) device.listIds device) device := by
  unfold gcProgram
  apply Program.Safe.bind
  apply Program.Safe.imp
  · apply safe_mark _ (ls.readEdges device) roots (fun state => state = device)
    · rintro state later rfl moved
      exact moved
    · rintro state id rfl _
      exact ⟨trivial, ls.get state id, state, rfl, rfl, rfl⟩
    · rfl
  · rintro live later ⟨exact_live, rfl⟩
    apply Program.Safe.ask
    · exact fun _ _ => trivial
    · rintro state reply after rfl answer
      cases answer
      exact safe_sweep ls _ live state.listIds exact_live state
    · rintro state error after rfl answer
      cases answer

/-- The law a collection keeps: it failed and took nothing, or all it took lay
out of reach. -/
def CollectsGarbage (truth : Lifestream) (roots : List ObjectId) (before : Device)
    (outcome : EStateM.Result Error Device Nat) : Prop :=
  (∃ error after, outcome = .error error after ∧ ∀ id, after.has id = before.has id) ∨
    ∀ id, before.has id = true → (finalState outcome).has id = false →
      ¬ReachedFrom (truth.edges before) roots id

/-- Whatever is present and in reach is also reached through objects that this
handle reads. -/
def ReadsItsWay (truth ls : Lifestream) (roots : List ObjectId) (device : Device) : Prop :=
  ∀ id, device.has id = true → ReachedFrom (truth.edges device) roots id →
    ReachedFrom (ls.readEdges device) roots id

/-- A collection that reads its way to all that is in reach takes garbage only,
however it ends; one that goes through takes garbage only if it does. -/
theorem gc_collects_garbage_iff (truth ls : Lifestream) (roots : List ObjectId)
    (device : Device) :
    (ReadsItsWay truth ls roots device →
        CollectsGarbage truth roots device (gc ls roots device)) ∧
      ∀ removed after, gc ls roots device = .ok removed after →
        (CollectsGarbage truth roots device (gc ls roots device) ↔
          ReadsItsWay truth ls roots device) := by
  have spares : SparesAlive (ReachedFrom (ls.readEdges device) roots) device
      (finalState (gc ls roots device)) :=
    safe_final _ (safe_gc ls roots device) (fun _ _ => Swept.spares) fun _ _ spared => spared
  have enough : ReadsItsWay truth ls roots device →
      CollectsGarbage truth roots device (gc ls roots device) := by
    intro reads
    right
    intro id present gone reached
    exact spares id present gone (reads id present reached)
  apply And.intro enough
  intro removed after ran
  constructor
  · rintro (⟨error, other, failed, _⟩ | garbage) id present reached
    · rw [ran] at failed
      cases failed
    · have swept := safe_run_ok (safe_gc ls roots device) ran
      rw [ran] at garbage
      by_contra unread
      apply garbage id present _ reached
      by_contra kept
      have stays := (swept id).mp (Bool.not_eq_false _ ▸ kept)
      exact unread (stays.2 ((listed_iff device id).mpr present))
  · exact enough

/-- The root that no longer reads, and the chunk it points at. -/
def damagedFile : ObjectId := sampleStore.store.idOf
  (Object.file [sampleStore.store.idOf (Object.chunk (utf8 "data")).encode]).encode

def orphanedChunk : ObjectId := sampleStore.store.idOf (Object.chunk (utf8 "data")).encode

/-- A store with one file, whose file object has gone bad on the disk. -/
def damagedDevice : Device :=
  let written := finalState (sampleStore.writeBytes (utf8 "data") Device.fresh)
  { written with unreadable := fun id => if id = damagedFile then some "Input/output error" else none }

def removedCount : EStateM.Result Error Device Nat → Option Nat
  | .ok removed _ => some removed
  | .error _ _ => none

/-- Collection goes through and takes the chunk of a root that it cannot read. -/
theorem gc_takes_chunk_of_unreadable_file :
    ¬CollectsGarbage sampleStore [damagedFile] damagedDevice
      (gc sampleStore [damagedFile] damagedDevice) := by
  rintro (⟨error, after, failed, _⟩ | garbage)
  · have went : removedCount (gc sampleStore [damagedFile] damagedDevice) = some 1 := by
      decide +kernel
    rw [failed] at went
    cases went
  · have present : damagedDevice.has orphanedChunk = true := by decide +kernel
    have gone : (finalState (gc sampleStore [damagedFile] damagedDevice)).has orphanedChunk =
        false := by
      decide +kernel
    have leads : orphanedChunk ∈ sampleStore.edges damagedDevice damagedFile := by decide +kernel
    exact garbage orphanedChunk present gone
      ((ReachedFrom.root List.mem_cons_self).edge leads)

end HorizonOs.Lifestream
