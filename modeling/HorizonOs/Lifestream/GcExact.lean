import HorizonOs.Lifestream.Gc

/-!
# What is left after a collection

Where every object of the disk reads, a collection leaves exactly the objects
that the roots lead to through what is there, each with the record it had, and
counts the others.
-/

namespace HorizonOs.Lifestream

open HorizonOs.Lib.ByteCodec HorizonOs.Lib.Runs HorizonOs.Lib.Programs HorizonOs.Lib.Search

set_option autoImplicit false

/-! ## The frame of a deletion -/

/-- What is still there is as it was, and so is all that is not an object. -/
structure Leaves (before after : Device) : Prop where
  records : ∀ id, after.has id = true → after.objects.lookup id = before.objects.lookup id
  refs : after.refs = before.refs
  unreadable : after.unreadable = before.unreadable
  unreadableRef : after.unreadableRef = before.unreadableRef
  written : after.written = before.written
  faults : before.faults = [] → after.faults = []

theorem Leaves.refl (device : Device) : Leaves device device :=
  ⟨fun _ _ => rfl, rfl, rfl, rfl, rfl, id⟩

theorem Leaves.trans {first second third : Device} (near : Leaves first second)
    (far : Leaves second third) : Leaves first third where
  records id present := by
    have last := far.records id present
    have between : second.has id = true := by
      rw [Device.has, ← last]
      exact present
    rw [last, near.records id between]
  refs := far.refs.trans near.refs
  unreadable := far.unreadable.trans near.unreadable
  unreadableRef := far.unreadableRef.trans near.unreadableRef
  written := far.written.trans near.written
  faults none := far.faults (near.faults none)

theorem delete_faults (id : ObjectId) (device : Device) (faultless : device.faults = []) :
    (finalState (delete id device)).faults = [] := by
  unfold delete
  simp only [bind_apply, theDevice]
  split
  case isTrue present =>
    simp only [bind_apply, osCall, faultless]
    exact faultless
  case isFalse absent => exact faultless

theorem Without.leaves {id : ObjectId} {before after : Device} (without : Without id before after)
    (faults : before.faults = [] → after.faults = []) : Leaves before after where
  records other present := by
    apply without.others
    rintro rfl
    rw [Device.has, without.gone] at present
    cases present
  refs := without.refs
  unreadable := without.unreadable
  unreadableRef := without.unreadableRef
  written := without.written
  faults := faults

/-! ## The sweep -/

/-- The sweep has passed the ids behind it: what of them is not live is gone and counted. -/
structure Collected (live behind : List ObjectId) (before : Device) (removed : Nat)
    (after : Device) : Prop where
  swept : Swept (· ∈ live) behind before after
  leaves : Leaves before after
  count : removed = (behind.filter (· ∉ live)).length

theorem Collected.pass {live behind : List ObjectId} {before after : Device} {removed : Nat}
    {id : ObjectId} (collected : Collected live behind before removed after) (lives : id ∈ live) :
    Collected live (behind ++ [id]) before removed after where
  swept := collected.swept.pass lives
  leaves := collected.leaves
  count := by
    rw [collected.count, List.filter_append, List.length_append]
    simp [lives]

theorem Collected.delete {live behind : List ObjectId} {before during after : Device}
    {removed : Nat} {id : ObjectId} (collected : Collected live behind before removed during)
    (dead : id ∉ live) (without : Without id during after)
    (faults : during.faults = [] → after.faults = []) :
    Collected live (behind ++ [id]) before (removed + 1) after where
  swept := collected.swept.delete dead without
  leaves := collected.leaves.trans (without.leaves faults)
  count := by
    rw [collected.count, List.filter_append, List.length_append]
    simp [dead]

theorem safe_sweep_collects (ls : Lifestream) (live ids : List ObjectId) (before : Device) :
    (List.foldlM (sweepOne live) 0 ids : StoreProgram Nat).Safe
      (Terms.alone (storeWorld ls) (fun _ _ => True) fun _ _ => before.faults ≠ [])
      (Collected live ids before) before := by
  refine safe_fold (sweepOne live) (fun behind _ removed after =>
    Collected live behind before removed after) ?step ?steady [] ids 0 before ?holds
  case step =>
    intro behind id ahead removed during collected
    unfold sweepOne
    split
    case isTrue kept =>
      rintro later rfl
      exact collected.pass kept
    case isFalse dead =>
      have faults := delete_faults id during
      obtain ⟨after, ⟨deleted, without⟩ | ⟨faulty, ⟨error, failed⟩, _⟩⟩ := delete_outcome id during
      · apply Program.Safe.ask
        case owed => exact fun _ _ => trivial
        case answers =>
          rintro later reply last rfl answer
          cases deleted.symm.trans answer
          rintro end' rfl
          rw [deleted] at faults
          exact collected.delete dead without faults
        case fails =>
          rintro later other last rfl answer
          cases deleted.symm.trans answer
      · apply Program.Safe.ask
        case owed => exact fun _ _ => trivial
        case answers =>
          rintro later reply last rfl answer
          cases failed.symm.trans answer
        case fails =>
          rintro later other last rfl answer faultless
          exact faulty (collected.leaves.faults faultless)
  case steady =>
    rintro behind ahead removed after later collected rfl
    exact collected
  case holds => exact ⟨fun id => by simp, Leaves.refl before, rfl⟩

theorem safe_gc_collects (ls : Lifestream) (roots : List ObjectId) (device : Device) :
    (gcProgram roots).Safe
      (Terms.alone (storeWorld ls) (fun _ _ => True) fun _ _ => device.faults ≠ [])
      (fun removed after => ∃ live,
        (∀ id, id ∈ live ↔ ReachedFrom (ls.readEdges device) roots id) ∧
          Collected live device.listIds device removed after) device := by
  unfold gcProgram
  apply Program.Safe.bind
  apply Program.Safe.imp
  · apply safe_mark _ (ls.readEdges device) roots (fun state => state = device)
    · rintro state later rfl moved
      exact moved
    · rintro state id rfl _
      exact ⟨trivial, ls.get state id, state, rfl, rfl, rfl⟩
    · rfl
  · rintro live later ⟨exact_live, rfl⟩
    apply Program.Safe.ask
    · exact fun _ _ => trivial
    · rintro state reply after rfl answer
      cases answer
      apply (safe_sweep_collects ls live state.listIds state).imp
      exact fun removed after collected => ⟨live, exact_live, collected⟩
    · rintro state error after rfl answer
      cases answer

/-! ## Collection where every object reads -/

/-- Every object that is there reads. -/
def AllRead (ls : Lifestream) (device : Device) : Prop :=
  ∀ id ∈ device.listIds, ∃ object, ls.get device id = .ok object

theorem AllRead.edges {ls : Lifestream} {device : Device} (reads : AllRead ls device) :
    ls.readEdges device = ls.edges device := by
  funext id
  unfold readEdges HorizonOs.Lifestream.edges
  cases present : device.has id with
  | true =>
      obtain ⟨object, got⟩ := reads id ((listed_iff device id).mpr present)
      rw [got, (get_ok ls device id object got).1]
      rfl
  | false =>
      have absent : ls.contents device id = none := by
        cases held : ls.contents device id with
        | none => rfl
        | some object =>
            rw [contents_present held] at present
            cases present
      rw [absent]
      cases got : ls.get device id with
      | error error => rfl
      | ok object =>
          rw [(get_ok ls device id object got).2] at present
          cases present

/-- What a collection that went through has left and counted. -/
structure CollectedExactly (ls : Lifestream) (roots : List ObjectId) (before : Device)
    (removed : Nat) (after : Device) : Prop where
  present : ∀ id, after.has id = true ↔
    before.has id = true ∧ ReachedFrom (ls.edges before) roots id
  leaves : Leaves before after
  count : removed = (before.listIds.filter fun id => !after.has id).length

theorem gc_collects_exactly (ls : Lifestream) (roots : List ObjectId) (device : Device)
    (reads : AllRead ls device) :
    (∃ removed after, gc ls roots device = .ok removed after ∧
        CollectedExactly ls roots device removed after) ∨
      device.faults ≠ [] ∧ ∃ error after, gc ls roots device = .error error after := by
  have ended := safe_run (safe_gc_collects ls roots device)
  cases outcome : gc ls roots device with
  | error error after =>
      have ran : (gcProgram roots).run (storeWorld ls) device = .error error after := outcome
      rw [ran] at ended
      exact .inr ⟨ended, error, after, rfl⟩
  | ok removed after =>
      have ran : (gcProgram roots).run (storeWorld ls) device = .ok removed after := outcome
      rw [ran] at ended
      obtain ⟨live, exact_live, collected⟩ := ended
      rw [reads.edges] at exact_live
      have present : ∀ id, after.has id = true ↔
          device.has id = true ∧ ReachedFrom (ls.edges device) roots id := by
        intro id
        rw [collected.swept id, ← exact_live id]
        constructor
        · exact fun ⟨there, spared⟩ => ⟨there, spared ((listed_iff device id).mpr there)⟩
        · exact fun ⟨there, lives⟩ => ⟨there, fun _ => lives⟩
      left
      refine ⟨removed, after, rfl, present, collected.leaves, ?_⟩
      rw [collected.count]
      congr 1
      apply List.filter_congr
      intro id listed
      have here := present id
      rw [← exact_live id] at here
      have there := (listed_iff device id).mp listed
      cases kept : after.has id with
      | true => simpa using (here.mp kept).2
      | false =>
          have dead : id ∉ live := by
            intro lives
            rw [here.mpr ⟨there, lives⟩] at kept
            cases kept
          simpa using dead

end HorizonOs.Lifestream
