import HorizonOs.Lifestream.Sample
import HorizonOs.Weave.Ledger

/-!
# The log is the state

A broker alone on its store: after every run of calls the log replays to a
table in which every grant stands as in the live one, and to as many entries as
the live sequence number counts. The run must keep what it logs within the
codec: the length of a string is written as a `u32`, and the log of a broker
that was handed a longer one cannot be read again.
-/

namespace HorizonOs.Weave

open HorizonOs.Lib.ByteCodec HorizonOs.Lib.Text HorizonOs.Lib.Runs
open HorizonOs.Lifestream

set_option autoImplicit false

/-! ## Logs on a disk -/

/-- The audit ref of the disk and the chain it heads hold these entries, oldest
first. -/
structure LogAt (ls : Lifestream) (device : Device) (head : Option ObjectId)
    (entries : List AuditEntry) : Prop where
  sound : Sound ls.store device
  pointed : device.refs.lookup auditRef = head.map refText
  linked : Linked ls device head entries.reverse
  encodable : ∀ entry ∈ entries, entry.event.Encodable

theorem persisted_entries (entries : List AuditEntry)
    (encodable : ∀ entry ∈ entries, entry.event.Encodable) :
    entries.map AuditEntry.persisted = entries := by
  refine (List.map_congr_left fun entry member => ?_).trans (List.map_id entries)
  rw [AuditEntry.persisted, persisted_event _ (encodable entry member).textual]
  rfl

/-- Reading a log back gives its entries. -/
theorem chain_from_log (ls : Lifestream) (device : Device) (head : Option ObjectId)
    (entries : List AuditEntry) (log : LogAt ls device head entries)
    (free : CollisionFree ls.store device) : Reads device (chainFrom ls device head) entries := by
  have linked := log.linked
  cases head with
  | none =>
      generalize reversed : entries.reverse = chain at linked
      cases linked
      rw [List.reverse_eq_nil_iff.mp reversed]
      exact .inl rfl
  | some id =>
      have read := read_chain_linked ls device id _ log.sound free linked
      rwa [← List.map_reverse, List.reverse_reverse, persisted_entries _ log.encodable] at read

theorem get_ref_log (ls : Lifestream) (device : Device) (head : Option ObjectId)
    (entries : List AuditEntry) (log : LogAt ls device head entries)
    (readable : device.unreadableRef auditRef = none) : device.getRef auditRef = .ok head := by
  simp only [Device.getRef, log.pointed]
  cases head with
  | none => rfl
  | some id => simp only [Option.map_some, readable, parse_ref_text]

/-- A new entry on a log. -/
theorem LogAt.snoc {ls : Lifestream} {before after : Device} {head : Option ObjectId}
    {entries : List AuditEntry} (log : LogAt ls before head entries) (entry : AuditEntry)
    (grows : Grows ls.store before after)
    (pointed : after.refs.lookup auditRef = some (refText entry.id))
    (linked : Linked ls after (some entry.id) (entry :: entries.reverse))
    (encodable : entry.event.Encodable) : LogAt ls after (some entry.id) (entries ++ [entry]) where
  sound := grows.sound log.sound
  pointed := pointed
  linked := by rwa [List.reverse_append]
  encodable other member := by
    rcases List.mem_append.mp member with old | new
    · exact log.encodable other old
    · rw [List.mem_singleton.mp new]
      exact encodable

/-! ## The invariant -/

/-- The live broker agrees with the log it has written. -/
structure Tracks (session : Session) (entries : List AuditEntry) : Prop where
  healthy : session.device.Healthy
  log : LogAt session.broker.ls session.device session.broker.head entries
  seq : session.broker.seq = UInt64.ofNat entries.length
  table : session.broker.grants.standings = standingsOf (entries.map AuditEntry.event)

/-- A call in which everything logged keeps within the codec. -/
def Encodes (session : Session) (call : Draw × Call) : Prop :=
  ∀ event, eventOf session.broker call.1 call.2 = some event → event.Encodable

instance : ∀ session call, Decidable (Encodes session call) := fun session call =>
  match found : eventOf session.broker call.1 call.2 with
  | none => isTrue fun _ logs => by rw [found] at logs; contradiction
  | some event =>
      decidable_of_iff event.Encodable
        ⟨fun encodable other logs => by rw [found] at logs; cases logs; exact encodable,
          fun encodes => encodes event found⟩

/-- One call of a session, its outcome set aside. -/
def callStep (session : Session) (call : Draw × Call) : Session :=
  finalState (perform call.1 call.2 session)

theorem Tracks.with_grants {session : Session} {entries : List AuditEntry}
    (tracks : Tracks session entries) (grants : GrantTable)
    (same : grants.standings = session.broker.grants.standings) :
    Tracks (session.withGrants grants) entries :=
  ⟨tracks.healthy, tracks.log, tracks.seq, same.trans tracks.table⟩

/-- On a healthy disk, a call that logs from the head of the log adds its entry. -/
theorem logging_call_outcome (session : Session) (entries : List AuditEntry) (draw : Draw)
    (call : Call) (event : Event) (healthy : session.device.Healthy)
    (log : LogAt session.broker.ls session.device session.broker.head entries)
    (logs : eventOf session.broker draw call = some event) (encodable : event.Encodable) :
    ∃ (device : Device) (entry : AuditEntry), entry.event = event ∧
      entry.seq = session.broker.seq ∧
      perform draw call session =
        answerIn (verdict session.broker draw call) (settled session draw call device entry) ∧
      device.Healthy ∧ LogAt session.broker.ls device (some entry.id) (entries ++ [entry]) := by
  obtain ⟨device, grows, ⟨id, performed, pointed, linked⟩ | ⟨faulty, _, _⟩⟩ :=
    logging_outcome session draw call event logs
  · refine ⟨device, ⟨id, session.broker.seq, draw.logNow, event⟩, rfl, rfl, performed, ?_, ?_⟩
    · exact grows.healthy healthy
    · exact log.snoc _ grows pointed (linked encodable.fits entries.reverse log.linked) encodable
  · exact absurd healthy.faults (faulty encodable.fits)

/-- A call that logs an event adds it to the log and to the ledger of the live
table. -/
theorem tracks_logging_call (session : Session) (entries : List AuditEntry) (draw : Draw)
    (call : Call) (event : Event) (tracks : Tracks session entries)
    (logs : eventOf session.broker draw call = some event) (encodable : event.Encodable) :
    ∃ entry : AuditEntry, entry.event = event ∧
      Tracks (callStep session (draw, call)) (entries ++ [entry]) := by
  obtain ⟨device, entry, same, _, performed, healthy, log⟩ := logging_call_outcome session entries
    draw call event tracks.healthy tracks.log logs encodable
  have left : callStep session (draw, call) = settled session draw call device entry := by
    rw [callStep, performed, final_answer]
  refine ⟨entry, same, ?_⟩
  rw [left]
  refine ⟨healthy, log, ?_, ?_⟩
  · change session.broker.seq + 1 = _
    rw [tracks.seq, List.length_append]
    simp
  · rw [List.map_append, List.map_singleton, standings_of_snoc, ← tracks.table, same]
    exact call_standings session.broker draw call event logs

theorem reload_unchanged (session : Session) (entries : List AuditEntry)
    (tracks : Tracks session entries) (draw : Draw) :
    perform draw .reload session = .ok (.reloaded false) session := by
  have read := get_ref_log _ _ _ _ tracks.log (tracks.healthy.unreadableRef auditRef)
  have same : session.broker.reload session.device = .ok (session.broker, false) := by
    simp [Broker.reload, read, fromLifestream, bind, Except.bind]
  simp only [perform, bind_apply, reloadCall, same]
  rfl

theorem tracks_step (session : Session) (call : Draw × Call)
    (tracks : ∃ entries, Tracks session entries) (encodes : Encodes session call) :
    ∃ entries, Tracks (callStep session call) entries := by
  obtain ⟨entries, tracks⟩ := tracks
  obtain ⟨draw, call⟩ := call
  cases logs : eventOf session.broker draw call with
  | some event =>
      obtain ⟨entry, _, after⟩ :=
        tracks_logging_call session entries draw call event tracks logs (encodes event logs)
      exact ⟨_, after⟩
  | none =>
      cases rereads : call.isReload with
      | false =>
          obtain ⟨grants, left, same⟩ := silent_standings session draw call logs rereads
          refine ⟨entries, ?_⟩
          rw [callStep, left]
          exact tracks.with_grants grants same
      | true =>
          cases call with
          | reload =>
              refine ⟨entries, ?_⟩
              rw [callStep, reload_unchanged session entries tracks draw]
              exact tracks
          | _ => contradiction

/-- A broker opened on a log tracks it. -/
theorem tracks_open (ls : Lifestream) (policy : Policy) (device : Device)
    (head : Option ObjectId) (entries journal : List AuditEntry) (broker : Broker)
    (healthy : device.Healthy) (log : LogAt ls device head entries)
    (free : CollisionFree ls.store device)
    (opened : openBroker ls policy device = .ok broker) :
    Tracks ⟨broker, device, journal⟩ entries := by
  have pointed := get_ref_log ls device head entries log (healthy.unreadableRef auditRef)
  have read := (chain_from_log ls device head entries log free).of_readable healthy.unreadable
  simp only [openBroker, pointed, fromLifestream, replay, read, bind, Except.bind,
    Except.ok.injEq] at opened
  subst opened
  exact ⟨healthy, log, rfl, table_of_standings entries⟩

theorem open_broker_ls (ls : Lifestream) (policy : Policy) (device : Device) (broker : Broker)
    (opened : openBroker ls policy device = .ok broker) : broker.ls = ls := by
  simp only [openBroker, bind, Except.bind] at opened
  split at opened
  · contradiction
  · split at opened
    · contradiction
    · cases opened
      rfl

/-- What tracking a log means for whoever replays it. -/
theorem tracks_replay (session : Session) (entries : List AuditEntry)
    (tracks : Tracks session entries)
    (free : CollisionFree session.broker.ls.store session.device) :
    ∃ grants, replay session.broker.ls session.device session.broker.head =
        .ok (grants, session.broker.seq) ∧
      grants.standings = session.broker.grants.standings := by
  have read := (chain_from_log _ _ _ _ tracks.log free).of_readable tracks.healthy.unreadable
  refine ⟨tableOf entries, ?_, (table_of_standings entries).trans tracks.table.symm⟩
  simp only [replay, read, bind, Except.bind, tracks.seq]

/-! ## Runs -/

/-- A call that is refused or finds nothing to do: an access the broker denies,
a revocation of what is revoked already, a reissue. -/
def Idle (broker : Broker) (draw : Draw) : Call → Prop
  | .access cap resource rights => refusal broker draw.now cap resource rights ≠ none
  | .revoke id => ∃ state, broker.grants.lookup id = some state ∧ state.revoked = true
  | .reissue _ => True
  | _ => False

theorem idle_standings (session : Session) (draw : Draw) (call : Call)
    (idle : Idle session.broker draw call) :
    (callStep session (draw, call)).broker.grants.standings =
      session.broker.grants.standings := by
  cases call with
  | access cap resource rights =>
      cases refused : refusal session.broker draw.now cap resource rights with
      | none => exact absurd refused idle
      | some reason =>
          have logs : eventOf session.broker draw (.access cap resource rights) =
              some (.deny (principalOf session.broker cap.grant) resource rights reason) := by
            simp only [eventOf, refused]
          rw [callStep, perform_of_event session draw _ _ logs]
          simp only [prepare, refused, with_grants_self]
          obtain ⟨device, _, ⟨id, logged, _⟩ | ⟨_, ⟨error, failed⟩, _⟩⟩ :=
            log_outcome session draw.logNow
              (.deny (principalOf session.broker cap.grant) resource rights reason)
          · rw [logged]
            dsimp only
            rw [final_answer]
            rfl
          · rw [failed]
            rfl
  | revoke id =>
      obtain ⟨state, found, already⟩ := idle
      have silent : eventOf session.broker draw (.revoke id) = none := by
        simp only [eventOf, found, already, if_true]
      obtain ⟨grants, left, same⟩ := silent_standings session draw _ silent rfl
      rw [callStep, left]
      exact same
  | reissue id =>
      obtain ⟨grants, left, same⟩ := silent_standings session draw (.reissue id) rfl rfl
      rw [callStep, left]
      exact same
  | grant principal resource rights limits => exact absurd idle id
  | request principal resource rights => exact absurd idle id
  | reload => exact absurd idle id

theorem run_grows (session : Session) (calls : List (Draw × Call)) :
    SessionGrows session (run callStep session calls) :=
  run_relates callStep SessionGrows SessionGrows.refl SessionGrows.trans
    (fun session call => perform_grows session call.1 call.2) session calls

theorem tracks_run (session : Session) (calls : List (Draw × Call))
    (tracks : ∃ entries, Tracks session entries)
    (encodes : Guarded callStep Encodes session calls) :
    ∃ entries, Tracks (run callStep session calls) entries :=
  guarded_run_invariant callStep Encodes (fun session => ∃ entries, Tracks session entries)
    tracks_step session calls tracks encodes

/-! ## A broker to compute with -/

def sampleId (byte : UInt8) : GrantId := ⟨List.replicate 16 byte, by simp⟩

/-- At a given time, draws a grant id of one repeated byte. -/
def sampleDraw (now : UInt64) (byte : UInt8) : Draw := ⟨now, now, sampleId byte, sampleMaster 3⟩

def samplePath (text : String) : Resource := .file (utf8 text)

/-- A broker just opened on a fresh store. -/
def sampleBroker : Broker := ⟨sampleStore, .denyAll, none, 0, ∅⟩

theorem fresh_log (ls : Lifestream) : LogAt ls Device.fresh none [] where
  sound := fresh_sound ls.store
  pointed := rfl
  linked := .nil
  encodable := by simp

/-- A grant of `/data`, a use, a refused use, a revocation and its repetition. -/
def sampleCalls : List (Draw × Call) :=
  [(sampleDraw 10 1, .grant "app" (samplePath "/data") Rights.READ Limits.none),
    (sampleDraw 11 2, .access ⟨sampleId 1, sampleMaster 3⟩ (samplePath "/data/x") Rights.READ),
    (sampleDraw 12 2, .access ⟨sampleId 1, sampleMaster 3⟩ (samplePath "/other") Rights.READ),
    (sampleDraw 13 2, .revoke (sampleId 1)), (sampleDraw 14 2, .revoke (sampleId 1))]

instance : ∀ store device, Decidable (CollisionFree store device) := fun store device =>
  inferInstanceAs (Decidable (∀ left ∈ device.written, ∀ right ∈ device.written,
    store.idOf left = store.idOf right → left = right))

/-- For a broker alone on a store, after every run whose events keep within the
codec, the log at the head replays to the live table and the live count; and
what is refused or finds nothing to do moves neither table. -/
theorem log_is_the_state (ls : Lifestream) (policy : Policy) (device : Device)
    (head : Option ObjectId) (earlier : List AuditEntry) (broker : Broker)
    (healthy : device.Healthy) (log : LogAt ls device head earlier)
    (opened : openBroker ls policy device = .ok broker) (calls : List (Draw × Call))
    (encodes : Guarded callStep Encodes ⟨broker, device, []⟩ calls)
    (free : CollisionFree ls.store (run callStep ⟨broker, device, []⟩ calls).device) :
    let session := run callStep ⟨broker, device, []⟩ calls
    ∃ grants, replay ls session.device session.broker.head = .ok (grants, session.broker.seq) ∧
      grants.standings = session.broker.grants.standings ∧
      ∀ draw call, Idle session.broker draw call → Encodes session (draw, call) →
        CollisionFree ls.store (callStep session (draw, call)).device →
        (callStep session (draw, call)).broker.grants.standings =
            session.broker.grants.standings ∧
          ∃ later, replay ls (callStep session (draw, call)).device
              (callStep session (draw, call)).broker.head =
                .ok (later, (callStep session (draw, call)).broker.seq) ∧
            later.standings = grants.standings := by
  intro session
  have same : broker.ls = ls := open_broker_ls ls policy device broker opened
  have grows : SessionGrows ⟨broker, device, []⟩ session := run_grows _ calls
  have store : session.broker.ls = ls := grows.ls.trans same
  have freeStart : CollisionFree ls.store device :=
    free.before grows.device.written
  obtain ⟨entries, tracks⟩ := tracks_run ⟨broker, device, []⟩ calls
    ⟨earlier, tracks_open ls policy device head earlier [] broker healthy log freeStart opened⟩
    encodes
  obtain ⟨grants, replayed, standings⟩ := tracks_replay session entries tracks (store ▸ free)
  rw [store] at replayed
  refine ⟨grants, replayed, standings, ?_⟩
  intro draw call idle encodesNext freeNext
  have unmoved := idle_standings session draw call idle
  have storeNext : (callStep session (draw, call)).broker.ls = ls :=
    (perform_grows session draw call).ls.trans store
  obtain ⟨entriesNext, tracksNext⟩ := tracks_step session (draw, call) ⟨entries, tracks⟩ encodesNext
  obtain ⟨later, replayedNext, standingsNext⟩ :=
    tracks_replay _ entriesNext tracksNext (storeNext ▸ freeNext)
  rw [storeNext] at replayedNext
  exact ⟨unmoved, later, replayedNext, standingsNext.trans (unmoved.trans standings.symm)⟩

/-- The sample session after its calls. -/
def sampleEnd : Session := run callStep ⟨sampleBroker, Device.fresh, []⟩ sampleCalls

theorem sample_log_is_the_state :
    ∃ grants, replay sampleStore sampleEnd.device sampleEnd.broker.head =
        .ok (grants, sampleEnd.broker.seq) ∧
      grants.standings = sampleEnd.broker.grants.standings := by
  have opened : openBroker sampleStore .denyAll Device.fresh = .ok sampleBroker := by rfl
  have encodes : Guarded callStep Encodes ⟨sampleBroker, Device.fresh, []⟩ sampleCalls := by
    decide +kernel
  have free : CollisionFree sampleStore.store sampleEnd.device := by decide +kernel
  obtain ⟨grants, replayed, standings, _⟩ := log_is_the_state sampleStore .denyAll Device.fresh
    none [] sampleBroker fresh_healthy (fresh_log sampleStore) opened sampleCalls encodes free
  rw [sampleEnd]
  exact ⟨grants, replayed, standings⟩

/-! ## A string one byte too long

A principal of 2^32 bytes is written with the length 0. The log then goes on
with the bytes of the name where it should go on with the resource. -/

@[irreducible] def longCount : Nat := 2 ^ 32

theorem long_count : longCount = 2 ^ 32 := by
  unfold longCount
  rfl

@[irreducible] def longPrincipal : PrincipalId := String.ofList (List.replicate longCount 'a')

def longEvent : Event :=
  .grant (sampleId 1) longPrincipal (samplePath "/data") Rights.READ none none

@[irreducible] def longPayload : Bytes := encodePayload 0 10 longEvent

/-- The chunks the payload is stored in. -/
@[irreducible] def longPieces : List Bytes :=
  (split longPayload).map fun range => (Object.chunk (slice longPayload range)).encode

/-- A hash without collisions among what this one call stores: its chunks by
their position, its file and its tree. -/
def longNumber (plaintext : Bytes) : Nat :=
  if plaintext ∈ longPieces then 2 + longPieces.idxOf plaintext
  else if plaintext.head? = some 2 then 0
  else 1

def longStore : Lifestream :=
  ⟨⟨sampleCryptoWith fun _ plaintext =>
      FixedBytes.ofBytes 32 (encodeBE 32 (longNumber plaintext)), ⟨sampleMaster 1, sampleMaster 2⟩⟩⟩

def longBroker : Broker := ⟨longStore, .denyAll, none, 0, ∅⟩

theorem long_principal_bytes :
    utf8 longPrincipal = List.replicate longCount 97 := by
  have encoded : String.utf8EncodeChar 'a' = [97] := by decide
  unfold longPrincipal
  rw [utf8_of_list, List.flatMap_replicate, encoded]
  exact List.flatten_replicate_singleton

theorem long_payload_length : longPayload.length < 2 ^ 36 := by
  have resource : (encodeResource (samplePath "/data")).length = 10 := by decide
  have rights : (encodeU32 Rights.READ.bits).length = 4 := encode_be_length _ _
  have name : (utf8 longPrincipal).length = 2 ^ 32 := by
    rw [long_principal_bytes, List.length_replicate, long_count]
  unfold longPayload
  simp only [encodePayload, longEvent, encodeEvent, encodeU64, List.length_append,
    encode_text_length]
  rw [name]
  simp only [resource, rights, encode_be_length, (sampleId 1).size, List.length_singleton,
    encodeOptU64, encodeOptU32]
  omega

/-- A name whose length wraps around to zero is read as empty, and its first byte
as the tag of the resource. -/
theorem decode_event_wrapped (id : GrantId) (principal : PrincipalId) (resource : Resource)
    (rights : Rights) (expiresUnix : Option UInt64) (maxUses : Option UInt32) (byte : UInt8)
    (rest : Bytes) (error : Error)
    (wrapped : UInt32.ofNat (utf8 principal).length = 0) (name : utf8 principal = byte :: rest)
    (tag : ∀ suffix, decodeResourceBody byte suffix = .error error) :
    decodeEvent (encodeEvent (.grant id principal resource rights expiresUnix maxUses)) =
      .error error := by
  have empty : Decodes readStr (encodeU32 0) "" := by
    have read := decodes_str "" (by decide)
    rwa [show encodeText "" = encodeU32 0 by decide] at read
  have body : ∀ suffix : Bytes, decodeResource (byte :: suffix) = .error error := by
    intro suffix
    exact (decodes_u8 endOfRecord byte).bind_error (k := decodeResourceBody) (tag suffix)
  rw [encodeEvent, encodeText, wrapped, name]
  simp only [List.append_assoc]
  refine (decodes_u8 endOfRecord 1).bind_error ?_
  refine (decodes_fixed endOfRecord id).bind_error ?_
  refine empty.bind_error ?_
  simp only [List.cons_append, bind, StateT.bind, body, Except.bind]

theorem decode_payload_error (seq timeUnix : UInt64) (event : Event) (error : Error)
    (fails : decodeEvent (encodeEvent event) = .error error) :
    decodePayload (encodePayload seq timeUnix event) = .error error := by
  have whole : readPayload (encodePayload seq timeUnix event) = .error error := by
    refine (decodes_u8 endOfRecord payloadVersion).bind_error ?_
    refine (decodes_u64 endOfRecord seq).bind_error ?_
    refine (decodes_u64 endOfRecord timeUnix).bind_error ?_
    simp only [bind, StateT.bind, fails, Except.bind]
  rw [decodePayload, whole]
  rfl

theorem long_payload_unreadable :
    decodePayload longPayload = .error (.corrupt "bad resource tag 97") := by
  have wrapped : UInt32.ofNat (utf8 longPrincipal).length = 0 := by
    rw [long_principal_bytes, List.length_replicate, long_count]
    rfl
  obtain ⟨count, positive⟩ : ∃ count, longCount = count + 1 :=
    Nat.exists_eq_succ_of_ne_zero (by rw [long_count]; decide)
  have name : utf8 longPrincipal = 97 :: List.replicate count 97 := by
    rw [long_principal_bytes, positive, List.replicate_succ]
  unfold longPayload
  refine decode_payload_error 0 10 longEvent _ ?_
  exact decode_event_wrapped _ _ _ _ _ _ 97 _ _ wrapped name fun suffix => rfl

theorem long_number_lt (plaintext : Bytes) (member : plaintext ∈ longPieces) :
    longNumber plaintext < 2 ^ 33 := by
  have count : longPieces.length < 2 ^ 32 := by
    have size := long_payload_length
    unfold longPieces
    rw [List.length_map]
    exact split_count_fits longPayload (by omega)
  have position := List.idxOf_lt_length_of_mem member
  rw [longNumber, if_pos member]
  omega

theorem long_piece_head (plaintext : Bytes) (member : plaintext ∈ longPieces) :
    plaintext.head? = some 1 := by
  unfold longPieces at member
  obtain ⟨range, _, rfl⟩ := List.mem_map.mp member
  rfl

/-- What the call stores is addressed without collision. -/
theorem long_store_free (device : Device) (file tree : Bytes) (fileTag : file.head? = some 2)
    (treeTag : tree.head? = some 3)
    (offered : ∀ plaintext ∈ device.written,
      plaintext = tree ∨ plaintext = file ∨ plaintext ∈ longPieces) :
    CollisionFree longStore.store device := by
  have notPiece : ∀ plaintext : Bytes, plaintext.head? ≠ some 1 → plaintext ∉ longPieces :=
    fun plaintext other member => other (long_piece_head plaintext member)
  have fileNumber : longNumber file = 0 := by
    rw [longNumber, if_neg (notPiece file (by rw [fileTag]; decide)), if_pos fileTag]
  have treeNumber : longNumber tree = 1 := by
    rw [longNumber, if_neg (notPiece tree (by rw [treeTag]; decide)),
      if_neg (by rw [treeTag]; decide)]
  have pieceNumber : ∀ plaintext ∈ longPieces,
      longNumber plaintext = 2 + longPieces.idxOf plaintext :=
    fun plaintext member => if_pos member
  have small : ∀ plaintext ∈ device.written, longNumber plaintext < 256 ^ 32 := by
    intro plaintext member
    rcases offered plaintext member with rfl | rfl | piece
    · rw [treeNumber]
      norm_num
    · rw [fileNumber]
      norm_num
    · exact lt_trans (long_number_lt plaintext piece) (by norm_num)
  intro left leftIn right rightIn same
  have numbers : longNumber left = longNumber right := by
    have bytes := congrArg FixedBytes.bytes same
    change (FixedBytes.ofBytes 32 (encodeBE 32 (longNumber left))).bytes =
      (FixedBytes.ofBytes 32 (encodeBE 32 (longNumber right))).bytes at bytes
    rw [fixed_of_bytes 32 _ (encode_be_length _ _), fixed_of_bytes 32 _ (encode_be_length _ _)]
      at bytes
    have decoded := congrArg decodeBE bytes
    rwa [decode_encode_be, decode_encode_be, Nat.mod_eq_of_lt (small left leftIn),
      Nat.mod_eq_of_lt (small right rightIn)] at decoded
  rcases offered left leftIn with rfl | rfl | leftPiece
  · rcases offered right rightIn with rfl | rfl | rightPiece
    · rfl
    · rw [treeNumber, fileNumber] at numbers
      contradiction
    · rw [treeNumber, pieceNumber right rightPiece] at numbers
      omega
  · rcases offered right rightIn with rfl | rfl | rightPiece
    · rw [treeNumber, fileNumber] at numbers
      contradiction
    · rfl
    · rw [fileNumber, pieceNumber right rightPiece] at numbers
      omega
  · rw [pieceNumber left leftPiece] at numbers
    rcases offered right rightIn with rfl | rfl | rightPiece
    · rw [treeNumber] at numbers
      omega
    · rw [fileNumber] at numbers
      omega
    · rw [pieceNumber right rightPiece] at numbers
      exact (List.idxOf_inj leftPiece).mp (by omega)

/-- An event is logged whether or not the codec can read it back; when it cannot,
neither can the chain. -/
theorem log_unreadable (session : Session) (timeUnix : UInt64) (event : Event) (error : Error)
    (healthy : session.device.Healthy) (sound : Sound session.broker.ls.store session.device)
    (size : (encodePayload session.broker.seq timeUnix event).length < 2 ^ 37)
    (fails : decodePayload (encodePayload session.broker.seq timeUnix event) = .error error) :
    ∃ device id, log timeUnix event session = .ok ()
        (session.logged device ⟨id, session.broker.seq, timeUnix, event⟩) ∧
      (∃ ids payloadId, ∀ plaintext ∈ device.written,
        plaintext = (Object.tree (entryChildren payloadId session.broker.head)).encode ∨
          plaintext = (Object.file ids).encode ∨
          plaintext ∈ (split (encodePayload session.broker.seq timeUnix event)).map (fun range =>
            (Object.chunk (slice (encodePayload session.broker.seq timeUnix event) range)).encode) ∨
          plaintext ∈ session.device.written) ∧
      (CollisionFree session.broker.ls.store device →
        readChain session.broker.ls device id = .error error) := by
  set broker := session.broker with brokerDef
  obtain ⟨id, middle, appended⟩ := append_succeeds broker.ls broker.head broker.seq timeUnix event
    size session.device healthy.faults
  have advances := advances_append broker.ls broker.head broker.seq timeUnix event session.device
  rw [appended] at advances
  obtain ⟨device, grows, _, written, _, ⟨pointed, _⟩ | ⟨faulty, _⟩⟩ :=
    set_ref_outcome broker.ls.store auditRef id middle
  · refine ⟨device, id, ?_, ?_, ?_⟩
    · simp only [log, ← brokerDef, appended, pointed]
    · rw [written]
      exact append_written broker.ls broker.head broker.seq timeUnix event _ middle id appended
    · intro free
      obtain ⟨payloadId, tree, held⟩ := append_holds broker.ls broker.head broker.seq timeUnix event
        (by omega) _ middle id appended
      have readable : device.Readable :=
        ((advances.toGrows.trans grows).healthy healthy).unreadable
      have entry := read_entry_held broker.ls device id payloadId broker.head _
        (grows.sound (advances.sound sound)) free readable (tree.grow grows.toKeeps)
        (held.grow grows.toKeeps)
      rw [fails] at entry
      simp only [readChain, walkChain, entry, bind, Except.bind, Except.map]
  · exact absurd (advances.faults healthy.faults) faulty

theorem replay_of_error (ls : Lifestream) (device : Device) (id : ObjectId) (error : Error)
    (read : readChain ls device id = .error error) :
    ¬∃ result, replay ls device (some id) = .ok result := by
  rintro ⟨result, replayed⟩
  simp only [replay, chainFrom, read, bind, Except.bind] at replayed
  contradiction

/-- A grant whose event the codec cannot read back goes through, and the log
replays to nothing from then on. -/
theorem grant_unreadable (broker : Broker) (device : Device) (draw : Draw)
    (principal : PrincipalId) (resource : Resource) (rights : Rights) (limits : Limits)
    (event : Event) (error : Error)
    (same : event = grantEvent draw principal resource rights limits)
    (healthy : device.Healthy) (sound : Sound broker.ls.store device)
    (size : (encodePayload broker.seq draw.logNow event).length < 2 ^ 37)
    (fails : decodePayload (encodePayload broker.seq draw.logNow event) = .error error) :
    ∃ after, callStep ⟨broker, device, []⟩ (draw, .grant principal resource rights limits) = after ∧
      after.broker.seq = broker.seq + 1 ∧
      (∃ ids payloadId, ∀ plaintext ∈ after.device.written,
        plaintext = (Object.tree (entryChildren payloadId broker.head)).encode ∨
          plaintext = (Object.file ids).encode ∨
          plaintext ∈ (split (encodePayload broker.seq draw.logNow event)).map (fun range =>
            (Object.chunk (slice (encodePayload broker.seq draw.logNow event) range)).encode) ∨
          plaintext ∈ device.written) ∧
      (CollisionFree broker.ls.store after.device →
        ¬∃ grants, replay broker.ls after.device after.broker.head =
          .ok (grants, after.broker.seq)) := by
  subst same
  obtain ⟨later, id, logged, written, unreadable⟩ :=
    log_unreadable ⟨broker, device, []⟩ draw.logNow _ error healthy sound size fails
  have performed := perform_of_event ⟨broker, device, []⟩ draw
    (.grant principal resource rights limits) _ rfl
  have unprepared : (⟨broker, device, []⟩ : Session).withGrants broker.grants =
      ⟨broker, device, []⟩ := rfl
  simp only [prepare, unprepared, logged] at performed
  refine ⟨_, congrArg finalState performed, ?_⟩
  rw [final_answer]
  refine ⟨rfl, written, fun free => ?_⟩
  rintro ⟨grants, replayed⟩
  exact replay_of_error broker.ls later id error (unreadable free) ⟨_, replayed⟩

/-- A broker that grants to a principal of 2^32 bytes answers with a capability
and cannot replay its log afterwards. -/
theorem long_principal_not_replayed :
    ∃ after, callStep ⟨longBroker, Device.fresh, []⟩ (sampleDraw 10 1,
        .grant longPrincipal (samplePath "/data") Rights.READ Limits.none) = after ∧
      CollisionFree longStore.store after.device ∧ after.broker.seq = 1 ∧
      ¬∃ grants, replay longStore after.device after.broker.head =
        .ok (grants, after.broker.seq) := by
  have size := long_payload_length
  have fails := long_payload_unreadable
  have pieces : longPieces = (split longPayload).map fun range =>
      (Object.chunk (slice longPayload range)).encode := by
    unfold longPieces
    rfl
  have payload : longPayload = encodePayload 0 10 longEvent := by
    unfold longPayload
    rfl
  rw [payload] at size fails pieces
  obtain ⟨after, left, count, ⟨ids, payloadId, written⟩, unreadable⟩ :=
    grant_unreadable longBroker Device.fresh (sampleDraw 10 1) longPrincipal (samplePath "/data")
      Rights.READ Limits.none longEvent _ rfl fresh_healthy (fresh_sound longStore.store)
      (lt_trans size (by norm_num)) fails
  have free : CollisionFree longStore.store after.device := by
    refine long_store_free after.device (Object.file ids).encode
      (Object.tree (entryChildren payloadId none)).encode rfl rfl ?_
    intro plaintext member
    rcases written plaintext member with tree | file | piece | before
    · exact .inl tree
    · exact .inr (.inl file)
    · exact .inr (.inr (by rw [pieces]; exact piece))
    · cases before
  exact ⟨after, left, free, count, unreadable free⟩

end HorizonOs.Weave
