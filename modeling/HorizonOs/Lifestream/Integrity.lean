import HorizonOs.Lifestream.Gc

/-!
# Integrity of the store

Trusted puts, records that a peer offers under an id of its choice, deletions
and collections, in any order and whatever system calls fail: each id that the
store lists stays the address of what its record opens to.
-/

namespace HorizonOs.Lifestream

open HorizonOs.Lib.ByteCodec HorizonOs.Lib.Text HorizonOs.Lib.Runs HorizonOs.Lib.Programs

set_option autoImplicit false

/-! ## The machine -/

/-- What may be asked of a store; the record may come from anybody. -/
inductive StoreOp where
  | put (plaintext : Bytes)
  | writeRecord (id : ObjectId) (record : Bytes)
  | delete (id : ObjectId)
  | gc (roots : List ObjectId)
  deriving DecidableEq

/-- The disk after an operation, whether it went through or failed. -/
def storeStep (ls : Lifestream) (device : Device) : StoreOp → Device
  | .put plaintext => finalState (ls.store.put plaintext device)
  | .writeRecord id record => finalState (ls.store.writeRecord id record device)
  | .delete id => finalState (delete id device)
  | .gc roots => finalState (gc ls roots device)

/-! ## What each operation keeps -/

theorem Without.sound {store : ObjectStore} {id : ObjectId} {before after : Device}
    (without : Without id before after) (sound : Sound store before) : Sound store after := by
  intro other record found
  have different : other ≠ id := by
    rintro rfl
    rw [without.gone] at found
    cases found
  rw [without.others other different] at found
  rw [without.written]
  exact sound other record found

theorem delete_sound (store : ObjectStore) (id : ObjectId) (device : Device)
    (sound : Sound store device) : Sound store (finalState (delete id device)) := by
  obtain ⟨after, ⟨deleted, without⟩ | ⟨_, ⟨error, failed⟩, same⟩⟩ := delete_outcome id device
  · rw [deleted]
    exact without.sound sound
  · rw [failed]
    exact (@Untouched.advances store _ _ same).sound sound

theorem gc_sound (ls : Lifestream) (roots : List ObjectId) (device : Device)
    (sound : Sound ls.store device) : Sound ls.store (finalState (gc ls roots device)) := by
  apply run_keeps (Sound ls.store) _ (gcProgram roots) device sound
  intro request state holds
  cases request with
  | get id => exact holds
  | listIds => exact holds
  | delete id => exact delete_sound ls.store id state holds

theorem store_step_sound (ls : Lifestream) (device : Device) (op : StoreOp)
    (sound : Sound ls.store device) : Sound ls.store (storeStep ls device op) := by
  cases op with
  | put plaintext => exact (advances_put ls.store plaintext device).sound sound
  | writeRecord id record => exact (write_record_outcome ls.store id record device).advances.sound sound
  | delete id => exact delete_sound ls.store id device sound
  | gc roots => exact gc_sound ls roots device sound

/-- A record that is not taken in leaves the objects of the store as they were. -/
theorem write_record_refused (store : ObjectStore) (id : ObjectId) (record : Bytes)
    (device : Device) :
    (∃ after, store.writeRecord id record device = .ok true after) ∨
      (finalState (store.writeRecord id record device)).objects = device.objects := by
  have received := write_record_outcome store id record device
  cases outcome : store.writeRecord id record device with
  | ok taken after =>
      rw [outcome] at received
      cases received with
      | held present => exact .inr rfl
      | linked => exact .inl ⟨after, rfl⟩
  | error error after =>
      rw [outcome] at received
      cases received with
      | failed _ _ absent advances objects => exact .inr objects

/-! ## Whole runs -/

/-- The answer to reading a file that holds `plaintext` sealed. -/
def readAs (plaintext : Bytes) : Option String → Except Error Bytes
  | none => .ok plaintext
  | some message => .error (.io message)

/-- The id names a record that opens to a plaintext of that address, and that
plaintext is what reading it answers, unless the file itself fails to read. -/
def OpensToItsId (store : ObjectStore) (device : Device) (id : ObjectId) : Prop :=
  ∃ record plaintext, device.objects.lookup id = some record ∧
    store.keys.openRecord store.crypto id record = .ok plaintext ∧ store.idOf plaintext = id ∧
      store.get device id = readAs plaintext (device.unreadable id)

theorem sound_opens {store : ObjectStore} {device : Device} (sound : Sound store device)
    {id : ObjectId} (listed : id ∈ device.listIds) : OpensToItsId store device id := by
  have present := (listed_iff device id).mp listed
  obtain ⟨record, found⟩ := Option.isSome_iff_exists.mp present
  obtain ⟨plaintext, _, address, opened⟩ := sound id record found
  refine ⟨record, plaintext, found, opened, address, ?_⟩
  simp only [ObjectStore.get, Device.readRecord, found]
  cases device.unreadable id with
  | some message => rfl
  | none => simp only [bind, Except.bind, ObjectStore.verified, opened, address, if_true, readAs]

theorem sound_empty (store : ObjectStore) {device : Device} (empty : device.listIds = []) :
    Sound store device := by
  intro id record found
  have listed := (listed_iff device id).mpr (Option.isSome_of_mem found)
  rw [empty] at listed
  cases listed

/-- From a store without objects, whatever is put, offered, deleted and
collected, every listed id opens to itself, and what is refused changes no object. -/
theorem store_keeps_integrity (ls : Lifestream) (device : Device) (ops : List StoreOp)
    (empty : device.listIds = []) :
    (∀ id ∈ (run (storeStep ls) device ops).listIds,
      OpensToItsId ls.store (run (storeStep ls) device ops) id) ∧
    ∀ id record,
      (∃ after, ls.store.writeRecord id record (run (storeStep ls) device ops) = .ok true after) ∨
        (finalState (ls.store.writeRecord id record (run (storeStep ls) device ops))).objects =
          (run (storeStep ls) device ops).objects := by
  have sound := run_invariant (storeStep ls) (Sound ls.store) (store_step_sound ls) device ops
    (sound_empty ls.store empty)
  constructor
  · exact fun id listed => sound_opens sound listed
  · exact fun id record => write_record_refused ls.store id record _

/-- A forged record, a deletion that a second put undoes, and a collection. -/
def sampleOps : List StoreOp :=
  let note := utf8 "note"
  [.writeRecord damagedFile note, .put note, .delete (sampleStore.store.idOf note), .put note,
    .put damagedFile.bytes, .gc [sampleStore.store.idOf note]]

theorem store_keeps_integrity_sample :
    (∀ id ∈ (run (storeStep sampleStore) Device.fresh sampleOps).listIds,
      OpensToItsId sampleStore.store (run (storeStep sampleStore) Device.fresh sampleOps) id) ∧
    ∀ id record,
      (∃ after, sampleStore.store.writeRecord id record
          (run (storeStep sampleStore) Device.fresh sampleOps) = .ok true after) ∨
        (finalState (sampleStore.store.writeRecord id record
          (run (storeStep sampleStore) Device.fresh sampleOps))).objects =
            (run (storeStep sampleStore) Device.fresh sampleOps).objects :=
  store_keeps_integrity sampleStore Device.fresh sampleOps rfl

end HorizonOs.Lifestream
