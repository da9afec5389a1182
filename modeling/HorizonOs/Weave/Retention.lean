import HorizonOs.Lifestream.GcExact
import HorizonOs.Weave.AuditLaws
import HorizonOs.Weave.Broker

/-!
# The log through a collection

A collection that has the target of `weave-audit` among its roots leaves every
entry of the chain readable as it was, tree, payload and chunks.
-/

namespace HorizonOs.Weave

open HorizonOs.Lib.ByteCodec HorizonOs.Lib.Text HorizonOs.Lib.Runs HorizonOs.Lib.Search
open HorizonOs.Lifestream

set_option autoImplicit false

/-! ## Reading what a collection has left -/

theorem get_left {ls : Lifestream} {roots : List ObjectId} {before after : Device} {removed : Nat}
    (collected : CollectedExactly ls roots before removed after) {id : ObjectId}
    (reached : ReachedFrom (ls.edges before) roots id) : ls.get after id = ls.get before id := by
  have same : after.objects.lookup id = before.objects.lookup id := by
    cases kept : after.has id with
    | true => exact collected.leaves.records id kept
    | false =>
        have absent : before.has id = false := by
          cases present : before.has id with
          | false => rfl
          | true =>
              rw [(collected.present id).mpr ⟨present, reached⟩] at kept
              cases kept
        rw [Option.not_isSome_iff_eq_none.mp (Bool.eq_false_iff.mp kept),
          Option.not_isSome_iff_eq_none.mp (Bool.eq_false_iff.mp absent)]
  simp only [Lifestream.get, ObjectStore.get, Device.readRecord, same, collected.leaves.unreadable]

theorem read_chunks_left {ls : Lifestream} {roots : List ObjectId} {before after : Device}
    {removed : Nat} (collected : CollectedExactly ls roots before removed after)
    (ids : List ObjectId) (reached : ∀ id ∈ ids, ReachedFrom (ls.edges before) roots id) :
    ls.readChunks after ids = ls.readChunks before ids := by
  induction ids with
  | nil => rfl
  | cons id rest ih =>
      have tail := ih fun other member => reached other (List.mem_cons_of_mem _ member)
      simp only [Lifestream.readChunks, get_left collected (reached id List.mem_cons_self), tail]

/-- What the object under an id points at is reached with it. -/
theorem linked_reached {ls : Lifestream} {roots : List ObjectId} {device : Device} {id : ObjectId}
    {object : Object} (reached : ReachedFrom (ls.edges device) roots id)
    (got : ls.get device id = .ok object) {next : ObjectId} (member : next ∈ object.links) :
    ReachedFrom (ls.edges device) roots next := by
  apply reached.edge
  simp only [Lifestream.edges, (get_ok ls device id object got).1]
  exact member

theorem read_bytes_left {ls : Lifestream} {roots : List ObjectId} {before after : Device}
    {removed : Nat} (collected : CollectedExactly ls roots before removed after) {id : ObjectId}
    (reached : ReachedFrom (ls.edges before) roots id) :
    ls.readBytes after id = ls.readBytes before id := by
  simp only [Lifestream.readBytes, get_left collected reached]
  cases got : ls.get before id with
  | error error => rfl
  | ok object =>
      cases object with
      | file chunks =>
          have same := read_chunks_left collected chunks fun chunk member =>
            linked_reached reached got member
          simp only [bind, Except.bind, same]
      | chunk | tree | generation => rfl

theorem child_named_linked {name : String} {entries : List TreeEntry} {id : ObjectId}
    (named : childNamed name entries = some id) : id ∈ (Object.tree entries).links := by
  obtain ⟨entry, found, rfl⟩ := Option.map_eq_some_iff.mp named
  exact List.mem_map_of_mem (List.mem_of_find?_eq_some found)

theorem read_entry_left {ls : Lifestream} {roots : List ObjectId} {before after : Device}
    {removed : Nat} (collected : CollectedExactly ls roots before removed after) {id : ObjectId}
    (reached : ReachedFrom (ls.edges before) roots id) :
    readEntry ls after id = readEntry ls before id := by
  simp only [readEntry, get_left collected reached]
  cases got : ls.get before id with
  | error error => rfl
  | ok object =>
      cases object with
      | tree entries =>
          cases named : childNamed childPayload entries with
          | none => simp only [fromLifestream, bind, Except.bind, named]
          | some payloadId =>
              have payload := read_bytes_left collected
                (linked_reached reached got (child_named_linked named))
              simp only [fromLifestream, bind, Except.bind, named, payload]
      | chunk | file | generation => rfl

/-! ## The chain -/

/-- The entries of a chain, as they are walked. -/
inductive OnChain (ls : Lifestream) (device : Device) (head : ObjectId) : ObjectId → Prop
  | head : OnChain ls device head head
  | prev {id before : ObjectId} {entry : AuditEntry} (walked : OnChain ls device head id)
      (read : readEntry ls device id = .ok (entry, some before)) : OnChain ls device head before

/-- An entry's predecessor is one of its children. -/
theorem prev_linked {ls : Lifestream} {device : Device} {id before : ObjectId} {entry : AuditEntry}
    (read : readEntry ls device id = .ok (entry, some before)) :
    ∃ object, ls.get device id = .ok object ∧ before ∈ object.links := by
  obtain ⟨object, lifted, rest⟩ := of_bind_ok read
  refine ⟨object, of_from_lifestream lifted, ?_⟩
  cases object with
  | tree entries =>
      cases named : childNamed childPayload entries with
      | none => simp only [named, reduceCtorEq] at rest
      | some payloadId =>
          simp only [named] at rest
          obtain ⟨payload, _, rest⟩ := of_bind_ok rest
          obtain ⟨⟨seq, timeUnix, event⟩, _, rest⟩ := of_bind_ok rest
          have ends : childNamed childPrev entries = some before := by
            have pair := Except.ok.inj rest
            exact congrArg Prod.snd pair
          exact child_named_linked ends
  | chunk | file | generation => cases rest

theorem chain_reached {ls : Lifestream} {roots : List ObjectId} {device : Device} {head id : ObjectId}
    (rooted : head ∈ roots) (walked : OnChain ls device head id) :
    ReachedFrom (ls.edges device) roots id := by
  induction walked with
  | head => exact ReachedFrom.root rooted
  | prev _ read ih =>
      obtain ⟨object, got, member⟩ := prev_linked read
      exact linked_reached ih got member

/-- Where every object reads, a collection on which no system call fails goes
through; it leaves what is reached and counts the rest; and behind the ref of the
audit log, where that is a root, each entry reads as before. -/
theorem gc_keeps_reached_and_log (ls : Lifestream) (roots : List ObjectId) (device : Device)
    (reads : AllRead ls device) :
    ((∃ removed after, gc ls roots device = .ok removed after ∧
        CollectedExactly ls roots device removed after) ∨
      device.faults ≠ [] ∧ ∃ error after, gc ls roots device = .error error after) ∧
    ∀ removed after head, gc ls roots device = .ok removed after →
      device.getRef auditRef = .ok (some head) → head ∈ roots →
        after.getRef auditRef = .ok (some head) ∧
          ∀ id, OnChain ls device head id → readEntry ls after id = readEntry ls device id := by
  have outcome := gc_collects_exactly ls roots device reads
  apply And.intro outcome
  intro removed after head ran named rooted
  rcases outcome with ⟨removed', after', ran', collected⟩ | ⟨_, error, other, failed⟩
  · rw [ran] at ran'
    cases ran'
    constructor
    · rw [← named]
      exact get_ref_congr (by rw [collected.leaves.refs]) collected.leaves.unreadableRef
    · exact fun id walked => read_entry_left collected (chain_reached rooted walked)
  · rw [ran] at failed
    cases failed

/-- Two entries in the log, and a file that nothing points at. -/
def loggedDevice : Device :=
  let revocation := Event.revoke (FixedBytes.ofBytes 16 [])
  let write : StoreM ObjectId := do
    let first ← append sampleStore none 0 7 revocation
    let second ← append sampleStore (some first) 1 8 revocation
    setRef auditRef second
    sampleStore.writeBytes (utf8 "loose")
  finalState (write Device.fresh)

def loggedHead : ObjectId :=
  (loggedDevice.getRef auditRef).toOption.join.getD (FixedBytes.ofBytes 32 [])

instance (ls : Lifestream) (device : Device) : Decidable (AllRead ls device) :=
  decidable_of_iff (∀ id ∈ device.listIds, (ls.get device id).toOption.isSome) <| by
    unfold AllRead
    apply forall₂_congr
    intro id _
    cases ls.get device id <;> simp [Except.toOption]

theorem gc_keeps_reached_and_log_sample :
    ∃ removed after, gc sampleStore [loggedHead] loggedDevice = .ok removed after ∧
      CollectedExactly sampleStore [loggedHead] loggedDevice removed after ∧
      after.getRef auditRef = .ok (some loggedHead) ∧
      ∀ id, OnChain sampleStore loggedDevice loggedHead id →
        readEntry sampleStore after id = readEntry sampleStore loggedDevice id := by
  have reads : AllRead sampleStore loggedDevice := by decide +kernel
  have named : loggedDevice.getRef auditRef = .ok (some loggedHead) := by decide +kernel
  obtain ⟨outcome, kept⟩ := gc_keeps_reached_and_log sampleStore [loggedHead] loggedDevice reads
  rcases outcome with ⟨removed, after, ran, collected⟩ | ⟨faulty, _⟩
  · exact ⟨removed, after, ran, collected,
      kept removed after loggedHead ran named List.mem_cons_self⟩
  · exact absurd (by decide +kernel) faulty

end HorizonOs.Weave
