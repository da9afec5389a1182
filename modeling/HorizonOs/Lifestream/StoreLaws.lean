import HorizonOs.Lifestream.Store

/-!
# What the store keeps

Whatever a write does, it leaves every object it found in place, and every
object it adds opens to the plaintext it is addressed by. As long as no two
plaintexts ever offered to the store share an address, what was stored under an
address is what is read back.
-/

namespace HorizonOs.Lifestream

open HorizonOs.Lib.ByteCodec HorizonOs.Lib.Text HorizonOs.Lib.Runs

set_option autoImplicit false

/-! ## Frames -/

/-- Only the outlook on coming calls has changed, never from good to bad. -/
structure Untouched (before after : Device) : Prop where
  marker : after.marker = before.marker
  objects : after.objects = before.objects
  refs : after.refs = before.refs
  unreadable : after.unreadable = before.unreadable
  unreadableRef : after.unreadableRef = before.unreadableRef
  written : after.written = before.written
  faults : before.faults = [] → after.faults = []

theorem Untouched.refl (device : Device) : Untouched device device :=
  ⟨rfl, rfl, rfl, rfl, rfl, rfl, id⟩

theorem Untouched.trans {first second third : Device} (left : Untouched first second)
    (right : Untouched second third) : Untouched first third where
  marker := right.marker.trans left.marker
  objects := right.objects.trans left.objects
  refs := right.refs.trans left.refs
  unreadable := right.unreadable.trans left.unreadable
  unreadableRef := right.unreadableRef.trans left.unreadableRef
  written := right.written.trans left.written
  faults none := right.faults (left.faults none)

/-- Every record on the disk opens to a plaintext that was offered to the store
and that addresses to where the record lies. -/
def Sound (store : ObjectStore) (device : Device) : Prop :=
  ∀ id record, device.objects.lookup id = some record →
    ∃ plaintext ∈ device.written, store.idOf plaintext = id ∧
      store.keys.openRecord store.crypto id record = .ok plaintext

/-- No two plaintexts ever offered to the store share an address. -/
def CollisionFree (store : ObjectStore) (device : Device) : Prop :=
  ∀ left ∈ device.written, ∀ right ∈ device.written,
    store.idOf left = store.idOf right → left = right

/-- The plaintext was offered to the store and its address is taken. -/
structure Stored (store : ObjectStore) (device : Device) (plaintext : Bytes) : Prop where
  offered : plaintext ∈ device.written
  present : device.has (store.idOf plaintext) = true

/-- Objects are only ever added, and soundly. -/
structure Keeps (store : ObjectStore) (before after : Device) : Prop where
  objects : ∀ id record, before.objects.lookup id = some record →
    after.objects.lookup id = some record
  written : before.written ⊆ after.written
  sound : Sound store before → Sound store after

/-- What any store operation short of deleting does to a disk. -/
structure Grows (store : ObjectStore) (before after : Device) : Prop
    extends Keeps store before after where
  marker : after.marker = before.marker
  unreadable : after.unreadable = before.unreadable
  unreadableRef : after.unreadableRef = before.unreadableRef
  faults : before.faults = [] → after.faults = []

/-- What writing objects does to a disk: no ref moves. -/
structure Advances (store : ObjectStore) (before after : Device) : Prop
    extends Grows store before after where
  refs : after.refs = before.refs

theorem Keeps.refl (store : ObjectStore) (device : Device) : Keeps store device device :=
  ⟨fun _ _ found => found, List.Subset.refl _, id⟩

theorem Keeps.trans {store : ObjectStore} {first second third : Device}
    (left : Keeps store first second) (right : Keeps store second third) :
    Keeps store first third where
  objects id record found := right.objects id record (left.objects id record found)
  written := List.Subset.trans left.written right.written
  sound holds := right.sound (left.sound holds)

theorem Grows.refl (store : ObjectStore) (device : Device) : Grows store device device :=
  ⟨Keeps.refl store device, rfl, rfl, rfl, id⟩

theorem Grows.trans {store : ObjectStore} {first second third : Device}
    (left : Grows store first second) (right : Grows store second third) :
    Grows store first third where
  toKeeps := left.toKeeps.trans right.toKeeps
  marker := right.marker.trans left.marker
  unreadable := right.unreadable.trans left.unreadable
  unreadableRef := right.unreadableRef.trans left.unreadableRef
  faults none := right.faults (left.faults none)

theorem Advances.refl (store : ObjectStore) (device : Device) : Advances store device device :=
  ⟨Grows.refl store device, rfl⟩

theorem Advances.trans (store : ObjectStore) (first second third : Device)
    (left : Advances store first second) (right : Advances store second third) :
    Advances store first third :=
  ⟨left.toGrows.trans right.toGrows, right.refs.trans left.refs⟩

theorem Untouched.advances {store : ObjectStore} {before after : Device}
    (same : Untouched before after) : Advances store before after where
  marker := same.marker
  objects id record found := by rw [same.objects]; exact found
  refs := same.refs
  unreadable := same.unreadable
  unreadableRef := same.unreadableRef
  written := by rw [same.written]; exact List.Subset.refl _
  faults := same.faults
  sound holds id record found := by
    rw [same.objects] at found
    rw [same.written]
    exact holds id record found

theorem Grows.healthy {store : ObjectStore} {before after : Device}
    (grows : Grows store before after) (healthy : before.Healthy) : after.Healthy where
  faults := grows.faults healthy.faults
  unreadable id := by rw [grows.unreadable]; exact healthy.unreadable id
  unreadableRef name := by rw [grows.unreadableRef]; exact healthy.unreadableRef name

theorem Keeps.has {store : ObjectStore} {before after : Device}
    (grows : Keeps store before after) {id : ObjectId} (present : before.has id = true) :
    after.has id = true := by
  obtain ⟨record, found⟩ := Option.isSome_iff_exists.mp present
  exact Option.isSome_iff_exists.mpr ⟨record, grows.objects id record found⟩

theorem Keeps.stored {store : ObjectStore} {before after : Device} {plaintext : Bytes}
    (grows : Keeps store before after) (stored : Stored store before plaintext) :
    Stored store after plaintext :=
  ⟨grows.written stored.offered, grows.has stored.present⟩

/-- Fewer plaintexts offered, fewer chances to collide. -/
theorem CollisionFree.before {store : ObjectStore} {before after : Device}
    (free : CollisionFree store after) (written : before.written ⊆ after.written) :
    CollisionFree store before :=
  fun left leftIn right rightIn => free left (written leftIn) right (written rightIn)

/-! ## Writing an object -/

theorem os_call_outcome (device : Device) :
    ∃ after, Untouched device after ∧
      (osCall device = .ok () after ∨
        device.faults ≠ [] ∧ ∃ message, osCall device = .error (.io message) after) := by
  unfold osCall
  split
  case h_1 fault rest ahead =>
    exact ⟨{ device with faults := rest }, ⟨rfl, rfl, rfl, rfl, rfl, rfl, by simp [ahead]⟩,
      .inr ⟨by simp [ahead], fault.message, rfl⟩⟩
  case h_2 rest ahead =>
    exact ⟨{ device with faults := rest }, ⟨rfl, rfl, rfl, rfl, rfl, rfl, by simp [ahead]⟩,
      .inl rfl⟩
  case h_3 => exact ⟨device, Untouched.refl device, .inl rfl⟩

/-- The disk once a record is linked under an id. -/
def Device.linked (device : Device) (id : ObjectId) (record : Bytes) : Device :=
  { device with objects := device.objects.insert id record }

theorem commit_record_outcome (id : ObjectId) (record : Bytes) (device : Device) :
    ∃ between, Untouched device between ∧
      (commitRecord id record device = .ok () (between.linked id record) ∨
        device.faults ≠ [] ∧ ∃ error, commitRecord id record device = .error error between) := by
  obtain ⟨first, sameFirst, called | ⟨faulty, message, called⟩⟩ := os_call_outcome device
  · obtain ⟨second, sameSecond, again | ⟨faulty, message, again⟩⟩ := os_call_outcome first
    · refine ⟨second, sameFirst.trans sameSecond, .inl ?_⟩
      simp only [commitRecord, bind_apply, called, again]
      rfl
    · refine ⟨second, sameFirst.trans sameSecond, .inr ⟨?_, .io message, ?_⟩⟩
      · exact fun none => faulty (sameFirst.faults none)
      · simp only [commitRecord, bind_apply, called, again]
  · refine ⟨first, sameFirst, .inr ⟨faulty, .io message, ?_⟩⟩
    simp only [commitRecord, bind_apply, called]

/-- `put` of an object that is not there: the record it links opens to the
plaintext, and only a fault or an oversized message keeps it from linking. -/
theorem put_new_outcome (store : ObjectStore) (id : ObjectId) (plaintext : Bytes)
    (device : Device) :
    ∃ between, Untouched device between ∧
      ((∃ record, store.keys.openRecord store.crypto id record = .ok plaintext ∧
          store.putNew id plaintext device = .ok id (between.linked id record)) ∨
        (device.faults ≠ [] ∨ maxMessage < plaintext.length) ∧
          ∃ error, store.putNew id plaintext device = .error error between) := by
  let drawn : Device := { device with drawn := device.drawn + 1 }
  have sameDrawn : Untouched device drawn := ⟨rfl, rfl, rfl, rfl, rfl, rfl, fun none => none⟩
  cases seals : store.keys.sealRecord store.crypto (store.crypto.nonceAt device.drawn) id
      plaintext with
  | error error =>
      refine ⟨drawn, sameDrawn, .inr ⟨.inr ?_, error, ?_⟩⟩
      · by_contra short
        obtain ⟨record, sealedRecord⟩ := seal_of_short store.crypto store.keys
          (store.crypto.nonceAt device.drawn) id plaintext (not_lt.mp short)
        rw [sealedRecord] at seals
        contradiction
      · simp only [ObjectStore.putNew, bind_apply, drawNonce, liftExcept, seals, drawn]
  | ok record =>
      have opened := open_seal _ _ _ _ _ _ seals
      have start : store.putNew id plaintext device =
          (osCall >>= fun _ => commitRecord id record >>= fun _ => pure id) drawn := by
        simp only [ObjectStore.putNew, bind_apply, drawNonce, liftExcept, seals, drawn]
      obtain ⟨first, sameFirst, called | ⟨faulty, message, called⟩⟩ := os_call_outcome drawn
      · obtain ⟨second, sameSecond, committed | ⟨faulty, error, committed⟩⟩ :=
          commit_record_outcome id record first
        · refine ⟨second, (sameDrawn.trans sameFirst).trans sameSecond,
            .inl ⟨record, opened, ?_⟩⟩
          rw [start]
          simp only [bind_apply, called, committed]
          rfl
        · refine ⟨second, (sameDrawn.trans sameFirst).trans sameSecond, .inr ⟨.inl ?_, error, ?_⟩⟩
          · exact fun none => faulty (sameFirst.faults none)
          · rw [start]
            simp only [bind_apply, called, committed]
      · refine ⟨first, sameDrawn.trans sameFirst, .inr ⟨.inl faulty, .io message, ?_⟩⟩
        rw [start]
        simp only [bind_apply, called]

/-- The disk once a plaintext has been offered. -/
def Device.noted (device : Device) (plaintext : Bytes) : Device :=
  { device with written := plaintext :: device.written }

theorem advances_noted (store : ObjectStore) (device : Device) (plaintext : Bytes) :
    Advances store device (device.noted plaintext) where
  marker := rfl
  objects _ _ found := found
  refs := rfl
  unreadable := rfl
  unreadableRef := rfl
  written := List.subset_cons_self _ _
  faults none := none
  sound holds id record found := by
    obtain ⟨source, member, address, opened⟩ := holds id record found
    exact ⟨source, List.mem_cons_of_mem _ member, address, opened⟩

theorem advances_linked (store : ObjectStore) (device : Device) (plaintext record : Bytes)
    (offered : plaintext ∈ device.written) (absent : device.has (store.idOf plaintext) = false)
    (opened : store.keys.openRecord store.crypto (store.idOf plaintext) record = .ok plaintext) :
    Advances store device (device.linked (store.idOf plaintext) record) where
  marker := rfl
  objects id other found := by
    have different : id ≠ store.idOf plaintext := by
      intro same
      subst same
      simp [Device.has, found] at absent
    rw [Device.linked, AList.lookup_insert_ne different]
    exact found
  refs := rfl
  unreadable := rfl
  unreadableRef := rfl
  written := List.Subset.refl _
  faults none := none
  sound holds id other found := by
    by_cases same : id = store.idOf plaintext
    · subst same
      rw [Device.linked, AList.lookup_insert] at found
      cases found
      exact ⟨plaintext, offered, rfl, opened⟩
    · rw [Device.linked, AList.lookup_insert_ne same] at found
      exact holds id other found

/-- `ObjectStore::put`: whatever the outcome it only adds to the disk, when it
succeeds the plaintext is stored under the id it returns, and it does succeed
on a disk without faults. -/
theorem put_outcome (store : ObjectStore) (plaintext : Bytes) (device : Device) :
    ∃ after, Advances store device after ∧ after.written = plaintext :: device.written ∧
      ((store.put plaintext device = .ok (store.idOf plaintext) after ∧
          Stored store after plaintext) ∨
        (device.faults ≠ [] ∨ maxMessage < plaintext.length) ∧
          ∃ error, store.put plaintext device = .error error after) := by
  have noted := advances_noted store device plaintext
  have start : store.put plaintext device =
      (if (device.noted plaintext).has (store.idOf plaintext) then pure (store.idOf plaintext)
        else store.putNew (store.idOf plaintext) plaintext) (device.noted plaintext) := by
    rfl
  by_cases present : (device.noted plaintext).has (store.idOf plaintext) = true
  · refine ⟨device.noted plaintext, noted, rfl, .inl ⟨?_, List.mem_cons_self, present⟩⟩
    rw [start, if_pos present]
    rfl
  · rw [if_neg present] at start
    obtain ⟨between, same, ⟨record, opened, put⟩ | ⟨cause, error, put⟩⟩ :=
      put_new_outcome store (store.idOf plaintext) plaintext (device.noted plaintext)
    · have offered : plaintext ∈ between.written := by
        rw [same.written]
        exact List.mem_cons_self
      have absent : between.has (store.idOf plaintext) = false := by
        rw [Device.has, same.objects]
        exact Bool.eq_false_iff.mpr present
      have linked := advances_linked store between plaintext record offered absent opened
      refine ⟨_, (noted.trans _ _ _ _ same.advances).trans _ _ _ _ linked, same.written,
        .inl ⟨start.trans put, offered, ?_⟩⟩
      simp [Device.has, Device.linked]
    · exact ⟨between, noted.trans _ _ _ _ same.advances, same.written,
        .inr ⟨cause, error, start.trans put⟩⟩

theorem advances_put (store : ObjectStore) (plaintext : Bytes) :
    Preserves (Advances store) (store.put plaintext) := by
  intro device
  obtain ⟨after, advances, _, ⟨put, _⟩ | ⟨_, error, put⟩⟩ := put_outcome store plaintext device
  all_goals rw [put]; exact advances

/-- `put` offers its plaintext and nothing else. -/
theorem put_written (store : ObjectStore) (plaintext : Bytes) (device : Device) :
    (finalState (store.put plaintext device)).written = plaintext :: device.written := by
  obtain ⟨after, _, written, ⟨put, _⟩ | ⟨_, error, put⟩⟩ := put_outcome store plaintext device
  all_goals rw [put]; exact written

theorem put_stored (store : ObjectStore) (plaintext : Bytes) (device after : Device)
    (id : ObjectId) (put : store.put plaintext device = .ok id after) :
    id = store.idOf plaintext ∧ Stored store after plaintext := by
  obtain ⟨other, _, _, ⟨same, stored⟩ | ⟨_, error, same⟩⟩ := put_outcome store plaintext device
  · rw [put] at same
    cases same
    exact ⟨rfl, stored⟩
  · rw [put] at same
    contradiction

theorem put_succeeds (store : ObjectStore) (plaintext : Bytes) (device : Device)
    (faultless : device.faults = []) (short : plaintext.length ≤ maxMessage) :
    ∃ after, store.put plaintext device = .ok (store.idOf plaintext) after := by
  obtain ⟨after, _, _, ⟨put, _⟩ | ⟨faulty | long, _⟩⟩ := put_outcome store plaintext device
  · exact ⟨after, put⟩
  · contradiction
  · omega

/-- What becomes of a record offered by a peer. -/
inductive Received (store : ObjectStore) (id : ObjectId) (record : Bytes) (device : Device) :
    EStateM.Result Error Device Bool → Prop where
  | held (present : device.has id = true) : Received store id record device (.ok false device)
  | linked (plaintext : Bytes) (after : Device) (absent : device.has id = false)
      (opens : store.verified id record = .ok plaintext) (advances : Advances store device after)
      (written : after.written = plaintext :: device.written)
      (objects : after.objects = device.objects.insert id record) :
      Received store id record device (.ok true after)
  | failed (error : Error) (after : Device) (absent : device.has id = false)
      (advances : Advances store device after) (objects : after.objects = device.objects)
      (written : ∀ plaintext ∈ after.written, plaintext ∈ device.written ∨
        store.verified id record = .ok plaintext) :
      Received store id record device (.error error after)

theorem Received.advances {store : ObjectStore} {id : ObjectId} {record : Bytes} {device : Device}
    {outcome : EStateM.Result Error Device Bool}
    (received : Received store id record device outcome) :
    Advances store device (finalState outcome) := by
  cases received with
  | held present => exact Advances.refl store device
  | linked plaintext after absent opens advances => exact advances
  | failed error after absent advances => exact advances

theorem verified_ok {store : ObjectStore} {id : ObjectId} {record plaintext : Bytes}
    (opened : store.verified id record = .ok plaintext) :
    store.idOf plaintext = id ∧ store.keys.openRecord store.crypto id record = .ok plaintext := by
  simp only [ObjectStore.verified, bind, Except.bind] at opened
  split at opened
  · cases opened
  · split at opened
    · cases opened
      exact ⟨by assumption, by assumption⟩
    · cases opened

/-- A record is refused for its cipher or its form. -/
theorem verified_error {store : ObjectStore} {id : ObjectId} {record : Bytes} {error : Error}
    (refused : store.verified id record = .error error) : error = .crypto ∨ error.IsCorrupt := by
  simp only [ObjectStore.verified, bind, Except.bind] at refused
  cases opened : store.keys.openRecord store.crypto id record with
  | ok plaintext =>
      simp only [opened] at refused
      split at refused
      · cases refused
      · cases refused
        exact .inr ⟨_, rfl⟩
  | error other =>
      rw [opened] at refused
      cases refused
      simp only [Keys.openRecord] at opened
      split at opened
      · cases opened
        exact .inr ⟨_, rfl⟩
      · split at opened
        · cases opened
        · cases opened
          exact .inl rfl

/-- `write_record`: an object that is there is left alone, and a record that is
linked opens to its id. -/
theorem write_record_outcome (store : ObjectStore) (id : ObjectId) (record : Bytes)
    (device : Device) : Received store id record device (store.writeRecord id record device) := by
  cases present : device.has id with
  | true =>
      have outcome : store.writeRecord id record device = .ok false device := by
        simp only [ObjectStore.writeRecord, bind_apply, theDevice, present, if_true]
        rfl
      rw [outcome]
      exact .held present
  | false =>
      cases opened : store.verified id record with
      | error error =>
          have outcome : store.writeRecord id record device = .error error device := by
            simp [ObjectStore.writeRecord, bind_apply, theDevice, present, liftExcept, opened]
          rw [outcome]
          exact .failed error device present (Advances.refl store device) rfl
            fun plaintext member => .inl member
      | ok plaintext =>
          have noted := advances_noted store device plaintext
          have outcome : store.writeRecord id record device =
              (osCall >>= fun _ => commitRecord id record >>= fun _ => pure true)
                (device.noted plaintext) := by
            simp [ObjectStore.writeRecord, bind_apply, theDevice, present, liftExcept, opened, note,
              Device.noted]
          have stopped : ∀ error between, Untouched (device.noted plaintext) between →
              Received store id record device (.error error between) := by
            intro error between same
            apply Received.failed error between present (noted.trans _ _ _ _ same.advances)
              same.objects
            intro other member
            rw [same.written] at member
            rcases List.mem_cons.mp member with rfl | old
            · exact .inr opened
            · exact .inl old
          rw [outcome]
          obtain ⟨first, sameFirst, called | ⟨_, message, called⟩⟩ :=
            os_call_outcome (device.noted plaintext)
          · obtain ⟨second, sameSecond, committed | ⟨_, error, committed⟩⟩ :=
              commit_record_outcome id record first
            · have same := sameFirst.trans sameSecond
              obtain ⟨address, opens⟩ := verified_ok opened
              have linked := advances_linked store second plaintext record
                (same.written ▸ List.mem_cons_self)
                (by rw [Device.has, same.objects, address]; exact present) (address.symm ▸ opens)
              rw [address] at linked
              simp only [bind_apply, called, committed]
              apply Received.linked plaintext (second.linked id record) present opened
              · exact (noted.trans _ _ _ _ same.advances).trans _ _ _ _ linked
              · exact same.written
              · simp only [Device.linked, same.objects]
                rfl
            · simp only [bind_apply, called, committed]
              exact stopped error second (sameFirst.trans sameSecond)
          · simp only [bind_apply, called]
            exact stopped (.io message) first sameFirst

/-! ## Reading it back -/

/-- What is stored is read back, on a disk whose files can be read. -/
theorem get_stored (store : ObjectStore) (device : Device) (plaintext : Bytes)
    (sound : Sound store device) (free : CollisionFree store device)
    (readable : device.unreadable (store.idOf plaintext) = none)
    (stored : Stored store device plaintext) :
    store.get device (store.idOf plaintext) = .ok plaintext := by
  obtain ⟨record, found⟩ := Option.isSome_iff_exists.mp stored.present
  obtain ⟨source, member, address, opened⟩ := sound _ _ found
  have same := free source member plaintext stored.offered address
  subst same
  simp [ObjectStore.get, Device.readRecord, found, readable, ObjectStore.verified, opened,
    bind, Except.bind]

/-! ## Refs -/

theorem trim_to_hex (id : ObjectId) : trim id.toHex = id.toHex := by
  rw [ObjectId.toHex, encodeHex, trim, String.toList_ofList,
    trim_chars_of_no_space _ (encode_hex_solid id.bytes)]

theorem parse_ref_text (id : ObjectId) : parseRef (refText id) = .ok (some id) := by
  simp only [parseRef, refText, from_utf8_utf8, trim_to_hex, from_hex_to_hex]

/-- No text shorter than the 64 digits of an id is read as one. -/
theorem from_hex_of_short (text : String) (short : text.toList.length < 64) :
    ObjectId.fromHex text = none := by
  cases decoded : decodeHexChars text.toList with
  | none => simp [ObjectId.fromHex, decoded]
  | some bytes =>
      have length := decode_hex_length _ _ decoded
      have wrong : bytes.length ≠ 32 := by omega
      simp [ObjectId.fromHex, decoded, wrong]

/-- A ref whose content is too short names nothing. -/
theorem parse_ref_of_short (content : Bytes) (short : content.length < 64) (id : ObjectId) :
    parseRef content ≠ .ok (some id) := by
  unfold parseRef
  cases decoded : fromUtf8 content with
  | none => simp
  | some text =>
      have chars := to_list_length_le_utf8 text
      rw [utf8_of_from_utf8 decoded] at chars
      have trimmed := trim_length_le text
      simp [from_hex_of_short (trim text) (by omega)]

theorem ref_text_length (id : ObjectId) : (refText id).length = 64 := by
  rw [refText, ObjectId.toHex, utf8_encode_hex_length, id.size]

/-- A ref file that was cut off while it was written reads as no ref. -/
theorem parse_torn_ref (id : ObjectId) (count : Nat) :
    parseRef ((refText id).dropLast.take count) = .ok none := by
  have cut : (refText id).dropLast.take count =
      utf8 (String.ofList ((encodeHexChars id.bytes).take (min count 63))) := by
    rw [List.dropLast_eq_take, List.take_take, ref_text_length, refText, ObjectId.toHex, encodeHex,
      utf8_take _ (encode_hex_sizes id.bytes)]
  have short : ((refText id).dropLast.take count).length < 64 := by
    have full := ref_text_length id
    simp only [List.length_take, List.length_dropLast]
    omega
  have unnamed := parse_ref_of_short _ short
  rw [cut] at unnamed ⊢
  unfold parseRef at unnamed ⊢
  simp only [from_utf8_utf8] at unnamed ⊢
  cases parsed : ObjectId.fromHex
      (trim (String.ofList ((encodeHexChars id.bytes).take (min count 63)))) with
  | none => rfl
  | some other =>
      rw [parsed] at unnamed
      exact absurd rfl (unnamed other)

/-- What setting a ref leaves in its file: the new text, or after a fault the old
content or a part of the new text too short to be read. -/
theorem set_ref_outcome (store : ObjectStore) (name : String) (id : ObjectId) (device : Device) :
    ∃ after, Grows store device after ∧ after.objects = device.objects ∧
      after.written = device.written ∧
      (∀ other, other ≠ name → after.refs.lookup other = device.refs.lookup other) ∧
      ((setRef name id device = .ok () after ∧ after.refs.lookup name = some (refText id)) ∨
        (device.faults ≠ [] ∧ ∃ message, setRef name id device = .error (.io message) after ∧
          (after.refs.lookup name = device.refs.lookup name ∨
            ∃ content, after.refs.lookup name = some content ∧ content.length < 64))) := by
  have frame : ∀ (refs : AList fun _ : String => Bytes) (faults : List (Option Fault)),
      (device.faults = [] → faults = []) →
        Grows store device { device with refs, faults } := by
    intro refs faults kept
    exact ⟨⟨fun _ _ found => found, List.Subset.refl _, fun sound => sound⟩, rfl, rfl, rfl, kept⟩
  have elsewhere : ∀ (content : Bytes) (other : String), other ≠ name →
      (device.refs.insert name content).lookup other = device.refs.lookup other :=
    fun content other different => AList.lookup_insert_ne different
  cases ahead : device.faults with
  | nil =>
      refine ⟨{ device with refs := device.refs.insert name (refText id) },
        frame _ device.faults (fun none => none), rfl, rfl, elsewhere _, .inl ⟨?_, AList.lookup_insert _⟩⟩
      simp only [setRef, ahead]
  | cons outcome rest =>
      cases outcome with
      | none =>
          refine ⟨{ device with refs := device.refs.insert name (refText id), faults := rest },
            frame _ rest (by simp [ahead]), rfl, rfl, elsewhere _,
            .inl ⟨?_, AList.lookup_insert _⟩⟩
          simp only [setRef, ahead]
      | some fault =>
          cases torn : fault.landed with
          | none =>
              refine ⟨{ device with faults := rest }, frame _ rest (by simp [ahead]), rfl, rfl,
                fun _ _ => rfl, .inr ⟨by simp, fault.message, ?_, .inl rfl⟩⟩
              simp only [setRef, ahead, torn]
          | some count =>
              refine ⟨{ device with
                  refs := device.refs.insert name ((refText id).dropLast.take count),
                  faults := rest },
                frame _ rest (by simp [ahead]), rfl, rfl, elsewhere _,
                .inr ⟨by simp, fault.message, ?_, .inr ⟨_, AList.lookup_insert _, ?_⟩⟩⟩
              · simp only [setRef, ahead, torn]
              · have full := ref_text_length id
                simp only [List.length_take, List.length_dropLast]
                omega

end HorizonOs.Lifestream
