import HorizonOs.Lifestream.Integrity
import HorizonOs.Lifestream.RoundTrip

/-!
# Byte strings through the store

A byte string is cut into chunks, and a file object lists them behind a count of
32 bits. What was written is read back, then and after anything that only adds to
the store, exactly when the chunks are no more than that count can say.
-/

namespace HorizonOs.Lifestream

open HorizonOs.Lib.ByteCodec HorizonOs.Lib.Text HorizonOs.Lib.Runs

set_option autoImplicit false

/-! ## What is written, and under which id -/

/-- The ids of the chunks of a byte string, and the file that lists them. -/
def chunkIds (ls : Lifestream) (data : Bytes) : List ObjectId :=
  (split data).map fun range => ls.store.idOf (Object.chunk (slice data range)).encode

def fileOf (ls : Lifestream) (data : Bytes) : Object := .file (chunkIds ls data)

/-- The chunks of a byte string are in the store. -/
def HoldsChunks (ls : Lifestream) (device : Device) (data : Bytes) : Prop :=
  List.Forall₂ (fun chunk piece => Holds ls device (.chunk piece) chunk) (chunkIds ls data)
    ((split data).map (slice data))

theorem put_chunks_ids (ls : Lifestream) (data : Bytes) (device after : Device)
    (ids : List ObjectId) (put : ls.putChunks data (split data) device = .ok ids after) :
    ids = chunkIds ls data := by
  have addresses := (put_chunks_holds ls data (split data) device after ids put).imp
    fun _ _ held => held.address
  rw [List.forall₂_map_right_iff] at addresses
  rw [chunkIds, ← List.forall₂_eq_eq_eq, List.forall₂_map_right_iff]
  exact addresses

theorem write_bytes_parts (ls : Lifestream) (data : Bytes) (device after : Device) (id : ObjectId)
    (wrote : ls.writeBytes data device = .ok id after) :
    id = ls.store.idOf (fileOf ls data).encode ∧ Stored ls.store after (fileOf ls data).encode ∧
      HoldsChunks ls after data := by
  simp only [Lifestream.writeBytes, bind_apply] at wrote
  split at wrote
  case h_2 => contradiction
  case h_1 ids middle chunked =>
    have chunks := put_chunks_holds ls data (split data) device middle ids chunked
    cases put_chunks_ids ls data device middle ids chunked
    obtain ⟨address, stored⟩ := put_stored ls.store (fileOf ls data).encode middle after id wrote
    exact ⟨address, stored,
      chunks.imp fun _ _ chunk => chunk.grow (put_advances ls (fileOf ls data) wrote).toKeeps⟩

/-! ## A file whose count is too narrow -/

/-- A file decodes to as many of its chunks as its count has kept. -/
theorem decode_file (ids : List ObjectId) :
    Object.decode (Object.file ids).encode = .ok (.file (ids.take (ids.length % 2 ^ 32))) := by
  set kept := ids.take (ids.length % 2 ^ 32) with keptDef
  have count : (UInt32.ofNat ids.length).toNat = kept.length := by
    rw [UInt32.toNat_ofNat', keptDef, List.length_take]
    exact (Nat.min_eq_left (Nat.mod_le _ _)).symm
  have body := (decodes_u32 endOfObject (UInt32.ofNat ids.length)).bind
    (k := fun count => do
      let chunks ← takeMany (takeFixed endOfObject 32) count.toNat
      pure (Object.file chunks))
    (by rw [count]; exact (decodes_ids kept).map Object.file)
  have whole : (ids.map FixedBytes.bytes).flatten = (kept.map FixedBytes.bytes).flatten ++
      ((ids.drop (ids.length % 2 ^ 32)).map FixedBytes.bytes).flatten := by
    rw [keptDef, ← List.flatten_append, ← List.map_append, List.take_append_drop]
  have read : readBody 2 (encodeU32 (UInt32.ofNat ids.length) ++
      (ids.map FixedBytes.bytes).flatten) =
        .ok (.file kept, ((ids.drop (ids.length % 2 ^ 32)).map FixedBytes.bytes).flatten) := by
    rw [whole, ← List.append_assoc]
    exact body _
  have tagged : ∀ rest, readObject (2 :: rest) = readBody 2 rest := by
    intro rest
    change ((takeU8 endOfObject ([2] ++ rest)).bind fun pair => readBody pair.1 pair.2) = _
    rw [decodes_u8]
    rfl
  rw [Object.decode, Object.encode, tagged, read]
  rfl

/-- A part of nonempty pieces that makes up the whole is all of them. -/
theorem take_flatten_whole (pieces : List Bytes) (count : Nat)
    (nonempty : ∀ piece ∈ pieces, piece ≠ [])
    (whole : (pieces.take count).flatten = pieces.flatten) : pieces.length ≤ count := by
  have halves : (pieces.take count).flatten ++ (pieces.drop count).flatten = pieces.flatten := by
    rw [← List.flatten_append, List.take_append_drop]
  rw [whole, List.append_right_eq_self, List.flatten_eq_nil_iff] at halves
  rw [← List.drop_eq_nil_iff]
  by_contra rest
  obtain ⟨piece, member⟩ := List.exists_mem_of_ne_nil _ rest
  exact nonempty piece (List.mem_of_mem_drop member) (halves piece member)

/-! ## Reading it back -/

theorem read_bytes_iff (ls : Lifestream) (data : Bytes) (device : Device)
    (sound : Sound ls.store device) (free : CollisionFree ls.store device)
    (readable : device.Readable) (stored : Stored ls.store device (fileOf ls data).encode)
    (chunks : HoldsChunks ls device data) :
    ls.readBytes device (ls.store.idOf (fileOf ls data).encode) = .ok data ↔
      (split data).length < 2 ^ 32 := by
  have sizes : (chunkIds ls data).length = (split data).length := List.length_map _
  have got := get_decodes ls device (fileOf ls data) sound free readable stored
  rw [fileOf, decode_file, sizes] at got
  have read := (read_chunks_holds ls device _ _ sound free
    (List.forall₂_take ((split data).length % 2 ^ 32) chunks)).of_readable readable
  have answer : ls.readBytes device (ls.store.idOf (fileOf ls data).encode) =
      .ok (((split data).map (slice data)).take ((split data).length % 2 ^ 32)).flatten := by
    rw [Lifestream.readBytes, fileOf, got]
    exact read
  rw [answer]
  constructor
  · intro same
    have whole := (Except.ok.inj same).trans (slices_split data).symm
    have all := take_flatten_whole _ _ (slices_nonempty data) whole
    rw [List.length_map] at all
    exact lt_of_le_of_lt all (Nat.mod_lt _ (by norm_num))
  · intro few
    rw [Nat.mod_eq_of_lt few, List.take_of_length_le (List.length_map _).le, slices_split]

/-! ## Reachable stores -/

/-- What may be done with a store: the calls on its records, and writing byte strings. -/
inductive LsOp where
  | store (op : StoreOp)
  | writeBytes (data : Bytes)

def lsStep (ls : Lifestream) (device : Device) : LsOp → Device
  | .store op => storeStep ls device op
  | .writeBytes data => finalState (ls.writeBytes data device)

/-- A put, an offered record or a written byte string takes nothing away. -/
def LsOp.Adds : LsOp → Prop
  | .store (.put _) => True
  | .store (.writeRecord _ _) => True
  | .store (.delete _) => False
  | .store (.gc _) => False
  | .writeBytes _ => True

/-- A store that operations have led to from one without objects. -/
def Reachable (ls : Lifestream) (device : Device) : Prop :=
  ∃ start ops, start.listIds = [] ∧ run (lsStep ls) start ops = device

theorem Reachable.sound {ls : Lifestream} {device : Device} (reachable : Reachable ls device) :
    Sound ls.store device := by
  obtain ⟨start, ops, empty, rfl⟩ := reachable
  apply run_invariant (lsStep ls) (Sound ls.store)
  · intro state op sound
    cases op with
    | store op => exact store_step_sound ls state op sound
    | writeBytes data => exact (advances_write_bytes ls data state).sound sound
  · exact sound_empty ls.store empty

theorem adds_keeps (ls : Lifestream) (device : Device) (op : LsOp) (adds : op.Adds) :
    Keeps ls.store device (lsStep ls device op) := by
  cases op with
  | writeBytes data => exact (advances_write_bytes ls data device).toKeeps
  | store op =>
      cases op with
      | put plaintext => exact (advances_put ls.store plaintext device).toKeeps
      | writeRecord id record =>
          exact (write_record_outcome ls.store id record device).advances.toKeeps
      | delete | gc => exact absurd adds id

theorem additions_keep (ls : Lifestream) (device : Device) (ops : List LsOp)
    (adds : ∀ op ∈ ops, op.Adds) : Keeps ls.store device (run (lsStep ls) device ops) := by
  induction ops generalizing device with
  | nil => exact Keeps.refl ls.store device
  | cons op rest ih =>
      have first := adds_keeps ls device op (adds op List.mem_cons_self)
      exact first.trans (ih _ fun other member => adds other (List.mem_cons_of_mem _ member))

theorem written_reads_iff (ls : Lifestream) (data : Bytes) (device after later : Device)
    (id : ObjectId) (sound : Sound ls.store device) (wrote : ls.writeBytes data device = .ok id after)
    (keeps : Keeps ls.store after later) (readable : later.Readable)
    (free : CollisionFree ls.store later) :
    ls.readBytes later id = .ok data ↔ (split data).length < 2 ^ 32 := by
  obtain ⟨rfl, stored, chunks⟩ := write_bytes_parts ls data device after id wrote
  have advances := advances_write_bytes ls data device
  rw [wrote] at advances
  exact read_bytes_iff ls data later (keeps.sound (advances.sound sound)) free readable
    (keeps.stored stored) (chunks.imp fun _ _ chunk => chunk.grow keeps)

theorem write_then_read_iff (ls : Lifestream) (data : Bytes) (device : Device)
    (sound : Sound ls.store device) (healthy : device.Healthy)
    (free : CollisionFree ls.store (finalState (ls.writeBytes data device))) :
    (∃ id after, ls.writeBytes data device = .ok id after ∧ ls.readBytes after id = .ok data) ↔
      (split data).length < 2 ^ 32 := by
  have reads : ∀ id after, ls.writeBytes data device = .ok id after →
      (ls.readBytes after id = .ok data ↔ (split data).length < 2 ^ 32) := by
    intro id after wrote
    have advances := advances_write_bytes ls data device
    rw [wrote] at advances free
    exact written_reads_iff ls data device after after id sound wrote (Keeps.refl ls.store after)
      (advances.healthy healthy).unreadable free
  constructor
  · exact fun ⟨id, after, wrote, read⟩ => (reads id after wrote).mp read
  · intro few
    obtain ⟨id, after, wrote⟩ := write_bytes_succeeds_of_count ls data few device healthy.faults
    exact ⟨id, after, wrote, (reads id after wrote).mpr few⟩

/-- Written bytes are read back, at once and after whatever adds to the store,
exactly when the file has fewer than 2^32 chunks; and equal bytes have one id. -/
theorem bytes_read_back_iff (ls : Lifestream) (data : Bytes) (device : Device)
    (reachable : Reachable ls device) :
    (device.Healthy → CollisionFree ls.store (finalState (ls.writeBytes data device)) →
      ((∃ id after, ls.writeBytes data device = .ok id after ∧ ls.readBytes after id = .ok data) ↔
        (split data).length < 2 ^ 32)) ∧
    (∀ id after later, ls.writeBytes data device = .ok id after → (∀ op ∈ later, op.Adds) →
      (run (lsStep ls) after later).Readable →
        CollisionFree ls.store (run (lsStep ls) after later) →
          (ls.readBytes (run (lsStep ls) after later) id = .ok data ↔
            (split data).length < 2 ^ 32)) ∧
    ∀ other id id' after after', ls.writeBytes data device = .ok id after →
      ls.writeBytes data other = .ok id' after' → id = id' := by
  have sound := reachable.sound
  refine ⟨fun healthy free => write_then_read_iff ls data device sound healthy free, ?_, ?_⟩
  · intro id after later wrote adds readable free
    exact written_reads_iff ls data device after _ id sound wrote (additions_keep ls after later adds)
      readable free
  · intro other id id' after after' here there
    have first := (write_bytes_parts ls data device after id here).1
    have second := (write_bytes_parts ls data other after' id' there).1
    exact first.trans second.symm

theorem bytes_read_back_iff_sample :
    (∃ id after, sampleStore.writeBytes (utf8 "data") Device.fresh = .ok id after ∧
        sampleStore.readBytes after id = .ok (utf8 "data")) ↔
      (split (utf8 "data")).length < 2 ^ 32 := by
  have free : ∀ left ∈ (finalState (sampleStore.writeBytes (utf8 "data") Device.fresh)).written,
      ∀ right ∈ (finalState (sampleStore.writeBytes (utf8 "data") Device.fresh)).written,
        sampleStore.store.idOf left = sampleStore.store.idOf right → left = right := by
    decide +kernel
  exact (bytes_read_back_iff sampleStore (utf8 "data") Device.fresh
    ⟨Device.fresh, [], rfl, rfl⟩).1 fresh_healthy free

/-! ## Data of more chunks than a file can count -/

/-- Writing a byte string offers its chunks and its file, and nothing else. -/
theorem write_bytes_offers (ls : Lifestream) (data : Bytes) (device : Device) :
    ∀ plaintext ∈ (finalState (ls.writeBytes data device)).written,
      plaintext = (fileOf ls data).encode ∨
        plaintext ∈ (split data).map (fun range => (Object.chunk (slice data range)).encode) ∨
          plaintext ∈ device.written := by
  intro plaintext member
  have chunks := put_chunks_written ls data (split data) device
  simp only [Lifestream.writeBytes, bind_apply] at member
  cases chunked : ls.putChunks data (split data) device with
  | error error middle =>
      rw [chunked] at member chunks
      exact .inr (chunks plaintext member)
  | ok ids middle =>
      cases put_chunks_ids ls data device middle ids chunked
      have file := put_written ls.store (fileOf ls data).encode middle
      change (finalState (ls.put (fileOf ls data) middle)).written = _ at file
      simp only [chunked] at member
      change plaintext ∈ (finalState (ls.put (fileOf ls data) middle)).written at member
      rw [file, List.mem_cons] at member
      rw [chunked] at chunks
      exact member.imp_right (chunks plaintext)

/-- A hash that tells plaintexts apart by their length and their first byte. -/
def shapeHash (_ : Key) (message : Bytes) : ObjectId :=
  FixedBytes.ofBytes 32 (encodeBE 32 (message.length * 256 + (message.headD 0).toNat))

def shapeStore : Lifestream :=
  ⟨⟨sampleCryptoWith shapeHash, Keys.derive (sampleCryptoWith shapeHash) (sampleMaster 9)⟩⟩

theorem shape_hash_tells (key : Key) {left right : Bytes} (leftSize : left.length < 2 ^ 64)
    (rightSize : right.length < 2 ^ 64) (same : shapeHash key left = shapeHash key right) :
    left.length = right.length ∧ left.headD 0 = right.headD 0 := by
  have small : ∀ message : Bytes, message.length < 2 ^ 64 →
      (message.length * 256 + (message.headD 0).toNat) % 256 ^ 32 =
        message.length * 256 + (message.headD 0).toNat := by
    intro message size
    have byte := (message.headD 0).toNat_lt
    apply Nat.mod_eq_of_lt
    omega
  have bytes := congrArg FixedBytes.bytes same
  simp only [shapeHash] at bytes
  rw [fixed_of_bytes 32 _ (encode_be_length _ _), fixed_of_bytes 32 _ (encode_be_length _ _)] at bytes
  have numbers := congrArg decodeBE bytes
  simp only [decode_encode_be, small left leftSize, small right rightSize] at numbers
  have leftByte := (left.headD 0).toNat_lt
  have rightByte := (right.headD 0).toNat_lt
  constructor
  · omega
  · apply UInt8.toNat_inj.mp
    omega

/-- Of zeros only, and of the same length, there is one plaintext of each shape. -/
theorem zeros_collide_nowhere (data : Bytes) (zeros : ∀ byte ∈ data, byte = 0)
    (size : data.length = 2 ^ 48) :
    CollisionFree shapeStore.store (finalState (shapeStore.writeBytes data Device.fresh)) := by
  have shape : ∀ plaintext ∈ (finalState (shapeStore.writeBytes data Device.fresh)).written,
      plaintext = (fileOf shapeStore data).encode ∨
        ∃ count ≤ maxSize, plaintext = 1 :: List.replicate count 0 := by
    intro plaintext member
    rcases write_bytes_offers shapeStore data Device.fresh plaintext member with file | chunk | older
    · exact .inl file
    · obtain ⟨range, ranged, rfl⟩ := List.mem_map.mp chunk
      refine .inr ⟨(slice data range).length, (split_slice_length data range ranged).2, ?_⟩
      rw [Object.encode, List.cons_inj_right, List.eq_replicate_iff]
      exact ⟨rfl, fun byte inside => zeros byte (List.mem_of_mem_take (List.mem_of_mem_drop inside))⟩
    · cases older
  have short : ∀ plaintext ∈ (finalState (shapeStore.writeBytes data Device.fresh)).written,
      plaintext.length < 2 ^ 64 := by
    intro plaintext member
    rcases shape plaintext member with rfl | ⟨count, few, rfl⟩
    · have count := split_count data
      have header : (encodeU32 (UInt32.ofNat (split data).length)).length = 4 := encode_be_length _ _
      simp only [fileOf, chunkIds, Object.encode, List.length_cons, List.length_append,
        flatten_ids_length, List.length_map, header, minSize] at count ⊢
      omega
    · simp only [List.length_cons, List.length_replicate, maxSize] at few ⊢
      omega
  intro left leftIn right rightIn same
  obtain ⟨length, head⟩ := shape_hash_tells shapeStore.store.keys.addr (short left leftIn) (short right rightIn) same
  rcases shape left leftIn with rfl | ⟨count, _, rfl⟩ <;>
    rcases shape right rightIn with rfl | ⟨count', _, rfl⟩
  · rfl
  · exact absurd (show (2 : UInt8) = 1 from head) (by decide)
  · exact absurd (show (1 : UInt8) = 2 from head) (by decide)
  · simp only [List.length_cons, List.length_replicate] at length
    rw [Nat.succ.inj length]

theorem zeros_of_length (count : Nat) :
    ∃ data : Bytes, data.length = count ∧ ∀ byte ∈ data, byte = 0 :=
  ⟨List.replicate count 0, List.length_replicate, fun _ member => List.eq_of_mem_replicate member⟩

/-- 256 TiB of zeros are cut into too many chunks: they are not read back. -/
theorem long_bytes_lost :
    ∃ data : Bytes, data.length = 2 ^ 48 ∧ Reachable shapeStore Device.fresh ∧
      Device.fresh.Healthy ∧
      CollisionFree shapeStore.store (finalState (shapeStore.writeBytes data Device.fresh)) ∧
      ¬∃ id after, shapeStore.writeBytes data Device.fresh = .ok id after ∧
        shapeStore.readBytes after id = .ok data := by
  obtain ⟨data, size, zeros⟩ := zeros_of_length (2 ^ 48)
  have free := zeros_collide_nowhere data zeros size
  refine ⟨data, size, ⟨Device.fresh, [], rfl, rfl⟩, fresh_healthy, free, ?_⟩
  rw [write_then_read_iff shapeStore data Device.fresh (fresh_sound _) fresh_healthy free]
  have covers := split_covers data
  simp only [maxSize] at covers
  omega

end HorizonOs.Lifestream
