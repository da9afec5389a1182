import HorizonOs.Lifestream.Chunker
import HorizonOs.Lifestream.StoreLaws

/-!
# Objects and byte strings in a store

`put` and `get` of objects, and byte strings stored as chunked files. What a
successful write stores is what every later read answers, unless a file of the
disk fails to read.
-/

set_option autoImplicit false

/-- A store with its fixed chunker. -/
structure HorizonOs.Lifestream where
  store : HorizonOs.Lifestream.ObjectStore

namespace HorizonOs.Lifestream

open HorizonOs.Lib.ByteCodec HorizonOs.Lib.Text HorizonOs.Lib.Runs

protected def init (crypto : Crypto) (master : Key) : StoreM Lifestream := do
  let store ← ObjectStore.init crypto master
  pure ⟨store⟩

protected def openStore (crypto : Crypto) (device : Device) (master : Key) :
    Except Error Lifestream := do
  let store ← ObjectStore.openStore crypto device master
  .ok ⟨store⟩

protected def put (ls : Lifestream) (object : Object) : StoreM ObjectId :=
  ls.store.put object.encode

protected def get (ls : Lifestream) (device : Device) (id : ObjectId) : Except Error Object := do
  let plaintext ← ls.store.get device id
  Object.decode plaintext

protected def putChunks (ls : Lifestream) (data : Bytes) :
    List (Nat × Nat) → StoreM (List ObjectId)
  | [] => pure []
  | range :: rest => do
      let id ← ls.put (.chunk (slice data range))
      let ids ← ls.putChunks data rest
      pure (id :: ids)

/-- Store raw bytes as a chunked file object. -/
protected def writeBytes (ls : Lifestream) (data : Bytes) : StoreM ObjectId := do
  let chunks ← ls.putChunks data (split data)
  ls.put (.file chunks)

protected def readChunks (ls : Lifestream) (device : Device) :
    List ObjectId → Except Error Bytes
  | [] => .ok []
  | id :: rest => do
      let object ← ls.get device id
      match object with
      | .chunk data => do
          let tail ← ls.readChunks device rest
          .ok (data ++ tail)
      | _ => .error (.corrupt "expected chunk")

protected def readBytes (ls : Lifestream) (device : Device) (id : ObjectId) :
    Except Error Bytes := do
  let object ← ls.get device id
  match object with
  | .file chunks => ls.readChunks device chunks
  | _ => .error (.corrupt "expected file")

/-- The ref that names the latest generation. -/
def headRef : String := "HEAD"

/-- Wrap a root tree in a generation and move `HEAD` to it. -/
protected def commit (ls : Lifestream) (timeUnix : UInt64) (root : ObjectId)
    (parents : List ObjectId) (label : String) : StoreM ObjectId := do
  let id ← ls.put (.generation { root, parents, timeUnix, label, metaText := "" })
  setRef headRef id
  pure id

/-! ## Reads that can only fail for the disk's sake -/

/-- Every object file of the disk can be read. -/
def Device.Readable (device : Device) : Prop := ∀ id, device.unreadable id = none

/-- The read answers `value`, unless a file of the disk fails to read. -/
def Reads {ε α : Type} (device : Device) (result : Except ε α) (value : α) : Prop :=
  result = .ok value ∨ ¬device.Readable ∧ ∃ error, result = .error error

theorem Reads.bind {ε α β : Type} {device : Device} {result : Except ε α}
    {next : α → Except ε β} {value : α} {answer : β} (first : Reads device result value)
    (second : Reads device (next value) answer) : Reads device (result >>= next) answer := by
  rcases first with rfl | ⟨unreadable, error, rfl⟩
  · exact second
  · exact .inr ⟨unreadable, error, rfl⟩

theorem Reads.eq_of_ok {ε α : Type} {device : Device} {result : Except ε α} {value other : α}
    (reads : Reads device result value) (success : result = .ok other) : other = value := by
  rcases reads with same | ⟨_, error, failed⟩
  · rw [same] at success
    cases success
    rfl
  · rw [failed] at success
    contradiction

theorem Reads.of_readable {ε α : Type} {device : Device} {result : Except ε α} {value : α}
    (reads : Reads device result value) (readable : device.Readable) : result = .ok value := by
  rcases reads with same | ⟨unreadable, _⟩
  · exact same
  · contradiction

/-! ## What the store holds -/

/-- The store holds the object under this id. -/
structure Holds (ls : Lifestream) (device : Device) (object : Object) (id : ObjectId) : Prop where
  fits : object.Fits
  address : id = ls.store.idOf object.encode
  stored : Stored ls.store device object.encode

/-- The store holds this byte string as a file under this id. -/
def HoldsBytes (ls : Lifestream) (device : Device) (data : Bytes) (id : ObjectId) : Prop :=
  ∃ ids pieces, Holds ls device (.file ids) id ∧
    List.Forall₂ (fun chunk piece => Holds ls device (.chunk piece) chunk) ids pieces ∧
    pieces.flatten = data

theorem Holds.grow {ls : Lifestream} {before after : Device} {object : Object} {id : ObjectId}
    (holds : Holds ls before object id) (grows : Keeps ls.store before after) :
    Holds ls after object id :=
  ⟨holds.fits, holds.address, grows.stored holds.stored⟩

theorem HoldsBytes.grow {ls : Lifestream} {before after : Device} {data : Bytes}
    {id : ObjectId} (holds : HoldsBytes ls before data id)
    (grows : Keeps ls.store before after) : HoldsBytes ls after data id := by
  obtain ⟨ids, pieces, file, chunks, whole⟩ := holds
  exact ⟨ids, pieces, file.grow grows,
    chunks.imp fun _ _ chunk => chunk.grow grows, whole⟩

theorem get_holds (ls : Lifestream) (device : Device) (object : Object) (id : ObjectId)
    (sound : Sound ls.store device) (free : CollisionFree ls.store device)
    (holds : Holds ls device object id) : Reads device (ls.get device id) object := by
  have decoded := decode_encode_object object holds.fits
  rw [holds.address]
  cases readable : device.unreadable (ls.store.idOf object.encode) with
  | none =>
      have read := get_stored ls.store device object.encode sound free readable holds.stored
      left
      simp only [Lifestream.get, read, bind, Except.bind, decoded]
  | some message =>
      right
      obtain ⟨record, found⟩ := Option.isSome_iff_exists.mp holds.stored.present
      refine ⟨fun all => by rw [all] at readable; contradiction, .io message, ?_⟩
      simp only [Lifestream.get, ObjectStore.get, Device.readRecord, found, readable, bind,
        Except.bind]

theorem read_chunks_holds (ls : Lifestream) (device : Device) (ids : List ObjectId)
    (pieces : List Bytes) (sound : Sound ls.store device)
    (free : CollisionFree ls.store device)
    (held : List.Forall₂ (fun chunk piece => Holds ls device (.chunk piece) chunk) ids pieces) :
    Reads device (ls.readChunks device ids) pieces.flatten := by
  induction held with
  | nil => exact .inl rfl
  | cons head _ ih =>
      refine (get_holds ls device _ _ sound free head).bind ?_
      exact ih.bind (.inl rfl)

theorem read_bytes_holds (ls : Lifestream) (device : Device) (data : Bytes) (id : ObjectId)
    (sound : Sound ls.store device) (free : CollisionFree ls.store device)
    (holds : HoldsBytes ls device data id) : Reads device (ls.readBytes device id) data := by
  obtain ⟨ids, pieces, file, chunks, whole⟩ := holds
  refine (get_holds ls device _ _ sound free file).bind ?_
  rw [← whole]
  exact read_chunks_holds ls device ids pieces sound free chunks

/-! ## What a write does -/

theorem advances_put_chunks (ls : Lifestream) (data : Bytes) (ranges : List (Nat × Nat)) :
    Preserves (Advances ls.store) (ls.putChunks data ranges) := by
  induction ranges with
  | nil => exact Preserves.pure (Advances.refl ls.store) []
  | cons range rest ih =>
      refine Preserves.bind (Advances.trans ls.store) (advances_put ls.store _) fun id => ?_
      exact Preserves.bind (Advances.trans ls.store) ih fun ids =>
        Preserves.pure (Advances.refl ls.store) _

theorem advances_write_bytes (ls : Lifestream) (data : Bytes) :
    Preserves (Advances ls.store) (ls.writeBytes data) :=
  Preserves.bind (Advances.trans ls.store) (advances_put_chunks ls data (split data)) fun _ =>
    advances_put ls.store _

/-- A successful put holds the object afterwards. -/
theorem put_holds (ls : Lifestream) (object : Object) (fits : object.Fits)
    (device after : Device) (id : ObjectId) (put : ls.put object device = .ok id after) :
    Holds ls after object id := by
  obtain ⟨address, stored⟩ := put_stored ls.store object.encode device after id put
  exact ⟨fits, address, stored⟩

theorem put_chunks_holds (ls : Lifestream) (data : Bytes) (ranges : List (Nat × Nat)) :
    ∀ (device after : Device) (ids : List ObjectId),
      ls.putChunks data ranges device = .ok ids after →
        List.Forall₂ (fun chunk piece => Holds ls after (.chunk piece) chunk) ids
          (ranges.map (slice data)) := by
  induction ranges with
  | nil =>
      intro device after ids put
      cases put
      exact .nil
  | cons range rest ih =>
      intro device after ids put
      simp only [Lifestream.putChunks, bind_apply] at put
      split at put
      case h_2 => contradiction
      case h_1 id middle first =>
        split at put
        case h_2 => contradiction
        case h_1 tail last remaining =>
          cases put
          have advances := advances_put_chunks ls data rest middle
          rw [remaining] at advances
          have head := put_holds ls (.chunk (slice data range)) trivial device middle id first
          exact .cons (head.grow advances.toKeeps) (ih middle after tail remaining)

theorem write_bytes_holds (ls : Lifestream) (data : Bytes) (size : data.length < 2 ^ 42)
    (device after : Device) (id : ObjectId) (wrote : ls.writeBytes data device = .ok id after) :
    HoldsBytes ls after data id := by
  simp only [Lifestream.writeBytes, bind_apply] at wrote
  split at wrote
  case h_2 => contradiction
  case h_1 ids middle chunked =>
    have chunks := put_chunks_holds ls data (split data) device middle ids chunked
    have count : ids.length < 2 ^ 32 := by
      have same := chunks.length_eq
      rw [List.length_map] at same
      rw [same]
      exact split_count_fits data size
    have advances := advances_put ls.store (Object.file ids).encode middle
    change Advances ls.store middle (finalState (ls.put (.file ids) middle)) at advances
    rw [wrote] at advances
    exact ⟨ids, (split data).map (slice data), put_holds ls (.file ids) count middle after id wrote,
      chunks.imp fun _ _ chunk => chunk.grow advances.toKeeps, slices_split data⟩

/-- What writing chunks offers to the store. -/
theorem put_chunks_written (ls : Lifestream) (data : Bytes) (ranges : List (Nat × Nat)) :
    ∀ (device : Device), ∀ plaintext ∈ (finalState (ls.putChunks data ranges device)).written,
      plaintext ∈ ranges.map (fun range => (Object.chunk (slice data range)).encode) ∨
        plaintext ∈ device.written := by
  induction ranges with
  | nil => exact fun device plaintext member => .inr member
  | cons range rest ih =>
      intro device plaintext member
      have noted := put_written ls.store (Object.chunk (slice data range)).encode device
      change (finalState (ls.put (.chunk (slice data range)) device)).written = _ at noted
      simp only [Lifestream.putChunks, bind_apply] at member
      rw [List.map_cons, List.mem_cons]
      cases first : ls.put (.chunk (slice data range)) device with
      | error error middle =>
          simp only [first, final_state_error] at member noted
          rw [noted, List.mem_cons] at member
          exact member.imp Or.inl fun before => before
      | ok chunk middle =>
          simp only [first, final_state_ok] at member noted
          have later := ih middle plaintext
          rw [noted, List.mem_cons] at later
          have below : plaintext ∈ (finalState (ls.putChunks data rest middle)).written := by
            cases remaining : ls.putChunks data rest middle <;>
              simpa [remaining, pure_apply] using member
          rcases later below with chunks | newest | before
          · exact .inl (.inr chunks)
          · exact .inl (.inl newest)
          · exact .inr before

/-- What writing a byte string offers to the store: its chunks and one file. -/
theorem write_bytes_written (ls : Lifestream) (data : Bytes) (device after : Device)
    (id : ObjectId) (wrote : ls.writeBytes data device = .ok id after) :
    ∃ ids, ∀ plaintext ∈ after.written, plaintext = (Object.file ids).encode ∨
      plaintext ∈ (split data).map (fun range => (Object.chunk (slice data range)).encode) ∨
        plaintext ∈ device.written := by
  simp only [Lifestream.writeBytes, bind_apply] at wrote
  split at wrote
  case h_2 => contradiction
  case h_1 ids middle chunked =>
    have chunks := put_chunks_written ls data (split data) device
    rw [chunked] at chunks
    have file := put_written ls.store (Object.file ids).encode middle
    change (finalState (ls.put (.file ids) middle)).written = _ at file
    rw [wrote] at file
    refine ⟨ids, fun plaintext member => ?_⟩
    change plaintext ∈ (finalState (EStateM.Result.ok id after :
      EStateM.Result Error Device ObjectId)).written at member
    rw [file, List.mem_cons] at member
    exact member.imp_right fun below => chunks plaintext below

/-! ## When a write succeeds -/

theorem put_chunks_succeeds (ls : Lifestream) (data : Bytes) (ranges : List (Nat × Nat))
    (short : ∀ range ∈ ranges, (slice data range).length ≤ maxSize) :
    ∀ device : Device, device.faults = [] →
      ∃ ids after, ls.putChunks data ranges device = .ok ids after := by
  induction ranges with
  | nil => exact fun device _ => ⟨[], device, rfl⟩
  | cons range rest ih =>
      intro device faultless
      have sealable : (Object.chunk (slice data range)).encode.length ≤ maxMessage := by
        have bound := short range List.mem_cons_self
        simp only [Object.encode, List.length_cons, maxMessage, maxSize] at *
        omega
      obtain ⟨middle, first⟩ := put_succeeds ls.store _ device faultless sealable
      have advances := advances_put ls.store (Object.chunk (slice data range)).encode device
      rw [first] at advances
      obtain ⟨ids, after, remaining⟩ :=
        ih (fun other member => short other (List.mem_cons_of_mem _ member)) middle
          (advances.faults faultless)
      refine ⟨ls.store.idOf (Object.chunk (slice data range)).encode :: ids, after, ?_⟩
      simp only [Lifestream.putChunks, Lifestream.put, bind_apply, first, remaining]
      rfl

theorem flatten_ids_length (ids : List ObjectId) :
    ((ids.map FixedBytes.bytes).flatten).length = 32 * ids.length := by
  induction ids with
  | nil => rfl
  | cons id rest ih =>
      simp only [List.map_cons, List.flatten_cons, List.length_append, List.length_cons, ih, id.size]
      omega

/-- A file with as many chunks as its count can say is never too long to be sealed. -/
theorem write_bytes_succeeds_of_count (ls : Lifestream) (data : Bytes)
    (count : (split data).length < 2 ^ 32) (device : Device) (faultless : device.faults = []) :
    ∃ id after, ls.writeBytes data device = .ok id after := by
  obtain ⟨ids, middle, chunked⟩ := put_chunks_succeeds ls data (split data)
    (fun range member => (split_slice_length data range member).2) device faultless
  have advances := advances_put_chunks ls data (split data) device
  rw [chunked] at advances
  have short : (Object.file ids).encode.length ≤ maxMessage := by
    have same := (put_chunks_holds ls data (split data) device middle ids chunked).length_eq
    have header : (encodeU32 (UInt32.ofNat ids.length)).length = 4 := encode_be_length _ _
    rw [List.length_map] at same
    simp only [Object.encode, List.length_cons, List.length_append, flatten_ids_length, header,
      maxMessage]
    omega
  obtain ⟨after, put⟩ := put_succeeds ls.store _ middle (advances.faults faultless) short
  refine ⟨ls.store.idOf (Object.file ids).encode, after, ?_⟩
  simp only [Lifestream.writeBytes, Lifestream.put, bind_apply, chunked, put]

theorem write_bytes_succeeds (ls : Lifestream) (data : Bytes) (size : data.length < 2 ^ 42)
    (device : Device) (faultless : device.faults = []) :
    ∃ id after, ls.writeBytes data device = .ok id after :=
  write_bytes_succeeds_of_count ls data (split_count_fits data size) device faultless

end HorizonOs.Lifestream
