import HorizonOs.Lifestream.Sample
import HorizonOs.Weave.Broker
import HorizonOs.Weave.Ledger
import Mathlib.Data.List.Duplicate
import Mathlib.Logic.Relation

/-!
# What an audit log cannot hide

The payload of an entry gives its event back as it was. Two stores of one identity that verify
from one head have one log: what a head id names is fixed by the keyed hash, entry by entry down
to the first. Verifying says how many well-formed entries there are and that none is missing; it
ends wherever no entry is behind itself.
-/

namespace HorizonOs.Weave

open HorizonOs.Lib.ByteCodec HorizonOs.Lib.Text HorizonOs.Lib.Runs
open HorizonOs.Lifestream

set_option autoImplicit false

/-! ## Payloads -/

theorem decode_encode_encodable (seq timeUnix : UInt64) (event : Event)
    (encodable : event.Encodable) :
    decodePayload (encodePayload seq timeUnix event) = .ok (seq, timeUnix, event) := by
  rw [decode_encode_payload seq timeUnix event encodable.fits,
    persisted_event event encodable.textual]

/-- A payload gives its event back, so that two entries share one only where they are the same. -/
theorem payload_round_trip :
    (∀ (seq timeUnix : UInt64) (event : Event), event.Encodable →
      decodePayload (encodePayload seq timeUnix event) = .ok (seq, timeUnix, event)) ∧
    ∀ (seq seq' timeUnix timeUnix' : UInt64) (event event' : Event), event.Encodable →
      event'.Encodable → encodePayload seq timeUnix event = encodePayload seq' timeUnix' event' →
        seq = seq' ∧ timeUnix = timeUnix' ∧ event = event' := by
  refine ⟨decode_encode_encodable, ?_⟩
  intro seq seq' timeUnix timeUnix' event event' encodable encodable' same
  have first := decode_encode_encodable seq timeUnix event encodable
  rw [same, decode_encode_encodable seq' timeUnix' event' encodable'] at first
  cases first
  exact ⟨rfl, rfl, rfl⟩

def sampleGrantEvent : Event :=
  .grant (FixedBytes.ofBytes 16 [1, 2, 3]) "aura" (.file (utf8 "/home/notes")) Rights.READ (some 90)
    (some 3)

theorem sample_payload_round_trip :
    decodePayload (encodePayload 7 80 sampleGrantEvent) = .ok (7, 80, sampleGrantEvent) ∧
      (7 : UInt64) = 7 ∧ (80 : UInt64) = 80 ∧ sampleGrantEvent = sampleGrantEvent :=
  ⟨payload_round_trip.1 7 80 sampleGrantEvent (by decide +kernel),
    payload_round_trip.2 7 7 80 80 sampleGrantEvent sampleGrantEvent (by decide +kernel)
      (by decide +kernel) rfl⟩

/-! ## Verifying -/

def Numbered (entries : List AuditEntry) : Prop :=
  ∀ position entry, entries[position]? = some entry → entry.seq = UInt64.ofNat position

theorem first_gap_none (entries : List AuditEntry) (start : Nat) :
    firstGap start entries = none ↔ ∀ position entry, entries[position]? = some entry →
      entry.seq = UInt64.ofNat (start + position) := by
  induction entries generalizing start with
  | nil => simp [firstGap]
  | cons entry rest ih =>
      rw [firstGap]
      constructor
      · intro checked
        split_ifs at checked with gap
        intro position other found
        cases position with
        | zero =>
            cases found
            exact not_not.mp gap
        | succ position =>
            have later := (ih (start + 1)).mp checked position other found
            rwa [Nat.add_assoc, Nat.add_comm 1] at later
      · intro numbered
        have here : entry.seq = UInt64.ofNat start := numbered 0 entry rfl
        rw [if_neg (not_not.mpr here)]
        apply (ih (start + 1)).mpr
        intro position other found
        rw [Nat.add_assoc, Nat.add_comm 1]
        exact numbered (position + 1) other found

theorem first_gap_numbered (entries : List AuditEntry) :
    firstGap 0 entries = none ↔ Numbered entries := by
  rw [first_gap_none]
  simp only [Nat.zero_add, Numbered]

/-! ## The chain behind a head -/

section Chains

variable {ls : Lifestream} {device : Device}

/-- The entries from a head back to the first, each read well. -/
inductive ChainOf (ls : Lifestream) (device : Device) : Option ObjectId → List AuditEntry → Prop
  | nil : ChainOf ls device none []
  | cons (id : ObjectId) (entry : AuditEntry) (prev : Option ObjectId) (rest : List AuditEntry)
      (top : readEntry ls device id = .ok (entry, prev)) (below : ChainOf ls device prev rest) :
      ChainOf ls device (some id) (entry :: rest)

theorem ChainOf.unique {head : Option ObjectId} {left right : List AuditEntry}
    (one : ChainOf ls device head left) (other : ChainOf ls device head right) : left = right := by
  induction one generalizing right with
  | nil =>
      cases other
      rfl
  | cons id entry prev rest top _ ih =>
      cases other with
      | cons _ entry' prev' rest' top' below' =>
          rw [top] at top'
          cases top'
          rw [ih below']

theorem read_entry_id {id : ObjectId} {entry : AuditEntry} {prev : Option ObjectId}
    (read : readEntry ls device id = .ok (entry, prev)) : entry.id = id := by
  rw [readEntry] at read
  obtain ⟨object, _, rest⟩ := of_bind_ok read
  cases object with
  | tree entries =>
      simp only at rest
      split at rest
      · cases rest
      · obtain ⟨payload, _, rest⟩ := of_bind_ok rest
        obtain ⟨⟨seq, timeUnix, event⟩, _, rest⟩ := of_bind_ok rest
        cases rest
        rfl
  | chunk data => cases rest
  | file chunks => cases rest
  | generation generation => cases rest

/-- What is read is there. -/
theorem read_entry_present {id : ObjectId} {entry : AuditEntry} {prev : Option ObjectId}
    (read : readEntry ls device id = .ok (entry, prev)) : id ∈ device.objects.keys := by
  rw [readEntry] at read
  obtain ⟨object, lifted, _⟩ := of_bind_ok read
  have got := of_from_lifestream lifted
  obtain ⟨plaintext, stored, _⟩ := of_bind_ok got
  obtain ⟨record, raw, _⟩ := of_bind_ok stored
  rw [Device.readRecord] at raw
  cases found : device.objects.lookup id with
  | none =>
      rw [found] at raw
      cases raw
  | some bytes => exact AList.lookup_isSome.mp (Option.isSome_iff_exists.mpr ⟨bytes, found⟩)

/-- Every entry of a chain heads the chain of what lies below it. -/
theorem ChainOf.tails {head : Option ObjectId} {entries : List AuditEntry}
    (chain : ChainOf ls device head entries) : ∀ entry ∈ entries,
      ∃ rest, ChainOf ls device (some entry.id) (entry :: rest) ∧ rest.length < entries.length := by
  induction chain with
  | nil => exact nofun
  | cons id entry prev rest top below ih =>
      intro other member
      rcases List.mem_cons.mp member with rfl | deeper
      · have same := read_entry_id top
        refine ⟨rest, ?_, Nat.lt_succ_self _⟩
        rw [same]
        exact .cons id other prev rest top below
      · obtain ⟨tail, chained, shorter⟩ := ih other deeper
        exact ⟨tail, chained, shorter.trans (Nat.lt_succ_self _)⟩

theorem ChainOf.ids_nodup {head : Option ObjectId} {entries : List AuditEntry}
    (chain : ChainOf ls device head entries) : (entries.map AuditEntry.id).Nodup := by
  induction chain with
  | nil => exact List.nodup_nil
  | cons id entry prev rest top below ih =>
      rw [List.map_cons, List.nodup_cons]
      refine ⟨?_, ih⟩
      intro member
      obtain ⟨other, inside, same⟩ := List.mem_map.mp member
      obtain ⟨tail, chained, shorter⟩ := below.tails other inside
      rw [same, read_entry_id top] at chained
      have whole := (ChainOf.cons id entry prev rest top below).unique chained
      rw [(List.cons.inj whole).2] at shorter
      exact Nat.lt_irrefl _ shorter

theorem ChainOf.length_le {head : Option ObjectId} {entries : List AuditEntry}
    (chain : ChainOf ls device head entries) : entries.length ≤ device.objects.keys.length := by
  have present : entries.map AuditEntry.id ⊆ device.objects.keys := by
    intro id member
    obtain ⟨entry, inside, rfl⟩ := List.mem_map.mp member
    obtain ⟨rest, chained, _⟩ := chain.tails entry inside
    cases chained with
    | cons _ _ prev _ top _ => exact read_entry_present top
  have bound := (List.subperm_of_subset chain.ids_nodup present).length_le
  rwa [List.length_map] at bound

theorem walk_chain_ok (fuel : Nat) (id : ObjectId) (entries : List AuditEntry) :
    walkChain ls device fuel id = .ok entries ↔
      ChainOf ls device (some id) entries ∧ entries.length ≤ fuel := by
  induction fuel generalizing id entries with
  | zero =>
      constructor
      · exact nofun
      · rintro ⟨chain, short⟩
        cases chain
        cases short
  | succ fuel ih =>
      rw [walkChain]
      constructor
      · intro walked
        obtain ⟨⟨entry, prev⟩, top, rest⟩ := of_bind_ok walked
        cases prev with
        | none =>
            cases rest
            exact ⟨.cons id entry none [] top .nil, Nat.succ_le_succ (Nat.zero_le _)⟩
        | some before =>
            obtain ⟨below, walked', ended⟩ := of_bind_ok rest
            cases ended
            obtain ⟨chain, short⟩ := (ih before below).mp walked'
            exact ⟨.cons id entry (some before) below top chain, Nat.succ_le_succ short⟩
      · rintro ⟨chain, short⟩
        cases chain with
        | cons _ entry prev rest top below =>
            apply bind_ok top
            cases prev with
            | none =>
                cases below
                rfl
            | some before =>
                exact bind_ok ((ih before rest).mpr ⟨below, Nat.le_of_succ_le_succ short⟩) rfl

/-- A log reads as the entries of the chain behind its head, oldest first. -/
theorem audit_ok (broker : Broker) (device : Device) (entries : List AuditEntry) :
    broker.audit device = .ok entries ↔ ChainOf broker.ls device broker.head entries.reverse := by
  rw [Broker.audit]
  cases broker.head with
  | none =>
      constructor
      · intro read
        cases read
        exact .nil
      · intro chain
        generalize reversed : entries.reverse = newest at chain
        cases chain
        rw [List.reverse_eq_nil_iff.mp reversed]
        rfl
  | some head =>
      constructor
      · intro read
        obtain ⟨out, walked, ended⟩ := of_bind_ok read
        cases ended
        rw [List.reverse_reverse]
        exact ((walk_chain_ok _ head out).mp walked).1
      · intro chain
        have walked := (walk_chain_ok (device.objects.keys.length + 1) head entries.reverse).mpr
          ⟨chain, chain.length_le.trans (Nat.le_succ _)⟩
        exact bind_ok walked (congrArg Except.ok (List.reverse_reverse entries))

theorem verify_ok (broker : Broker) (device : Device) (count : Nat) :
    broker.verify device = .ok count ↔
      ∃ entries, ChainOf broker.ls device broker.head entries.reverse ∧ Numbered entries ∧
        entries.length = count := by
  rw [Broker.verify]
  constructor
  · intro verified
    obtain ⟨entries, read, rest⟩ := of_bind_ok verified
    cases gap : firstGap 0 entries with
    | some found =>
        rw [gap] at rest
        cases rest
    | none =>
        rw [gap] at rest
        cases rest
        exact ⟨entries, (audit_ok broker device entries).mp read,
          (first_gap_numbered entries).mp gap, rfl⟩
  · rintro ⟨entries, chain, numbered, rfl⟩
    apply bind_ok ((audit_ok broker device entries).mpr chain)
    rw [(first_gap_numbered entries).mpr numbered]

end Chains

/-! ## Two stores of one identity -/

section TwoStores

/-- Where both answer, they answer the same. -/
def Agree {ε α : Type} (left right : Except ε α) : Prop :=
  ∀ one other, left = .ok one → right = .ok other → one = other

theorem Agree.bind {ε α β : Type} {left right : Except ε α} {next next' : α → Except ε β}
    (first : Agree left right) (second : ∀ value, Agree (next value) (next' value)) :
    Agree (left >>= next) (right >>= next') := by
  intro one other read read'
  obtain ⟨value, got, later⟩ := of_bind_ok read
  obtain ⟨value', got', later'⟩ := of_bind_ok read'
  have same := first value value' got got'
  rw [← same] at later'
  exact second value one other later later'

theorem Agree.refl {ε α : Type} (result : Except ε α) : Agree result result := by
  intro one other read read'
  rw [read] at read'
  exact Except.ok.inj read'

theorem Agree.error {ε α : Type} {left right : Except ε α} (error : ε)
    (failed : left = .error error) : Agree left right := by
  intro one other read
  rw [failed] at read
  cases read

/-- No two different contents that the stores read have one address. -/
def NoCollision (store : ObjectStore) (left right : Device) : Prop :=
  ∀ id id' one other, store.get left id = .ok one → store.get right id' = .ok other →
    store.idOf one = store.idOf other → one = other

variable {ls : Lifestream} {left right : Device}

theorem get_address {store : ObjectStore} {device : Device} {id : ObjectId} {plaintext : Bytes}
    (got : store.get device id = .ok plaintext) : store.idOf plaintext = id := by
  obtain ⟨record, _, checked⟩ := of_bind_ok got
  obtain ⟨opened, _, same⟩ := of_bind_ok checked
  split_ifs at same with address
  cases same
  exact address

theorem get_agrees (free : NoCollision ls.store left right) (id : ObjectId) :
    Agree (ls.get left id) (ls.get right id) := by
  apply Agree.bind
  · intro one other got got'
    apply free id id one other got got'
    rw [get_address got, get_address got']
  · exact fun plaintext => Agree.refl _

theorem read_chunks_agree (free : NoCollision ls.store left right) (ids : List ObjectId) :
    Agree (ls.readChunks left ids) (ls.readChunks right ids) := by
  induction ids with
  | nil => exact Agree.refl _
  | cons id rest ih =>
      apply (get_agrees free id).bind
      intro object
      cases object with
      | chunk data => exact ih.bind fun tail => Agree.refl _
      | file chunks => exact Agree.refl _
      | tree entries => exact Agree.refl _
      | generation generation => exact Agree.refl _

theorem read_bytes_agree (free : NoCollision ls.store left right) (id : ObjectId) :
    Agree (ls.readBytes left id) (ls.readBytes right id) := by
  apply (get_agrees free id).bind
  intro object
  cases object with
  | chunk data => exact Agree.refl _
  | file chunks => exact read_chunks_agree free chunks
  | tree entries => exact Agree.refl _
  | generation generation => exact Agree.refl _

theorem from_lifestream_agree {α : Type} {one other : Except Lifestream.Error α}
    (agree : Agree one other) : Agree (fromLifestream one) (fromLifestream other) :=
  fun _ _ read read' => agree _ _ (of_from_lifestream read) (of_from_lifestream read')

theorem read_entry_agrees (free : NoCollision ls.store left right) (id : ObjectId) :
    Agree (readEntry ls left id) (readEntry ls right id) := by
  apply (from_lifestream_agree (get_agrees free id)).bind
  intro object
  cases object with
  | tree entries =>
      simp only
      cases childNamed childPayload entries with
      | none => exact Agree.refl _
      | some payloadId =>
          apply (from_lifestream_agree (read_bytes_agree free payloadId)).bind
          exact fun payload => Agree.refl _
  | chunk data => exact Agree.refl _
  | file chunks => exact Agree.refl _
  | generation generation => exact Agree.refl _

/-- The chains behind one head are the same in both stores, by induction along one of them. -/
theorem chains_agree (free : NoCollision ls.store left right) {head : Option ObjectId}
    {entries entries' : List AuditEntry} (chain : ChainOf ls left head entries)
    (chain' : ChainOf ls right head entries') : entries = entries' := by
  induction chain generalizing entries' with
  | nil =>
      cases chain'
      rfl
  | cons id entry prev rest top _ ih =>
      cases chain' with
      | cons _ entry' prev' rest' top' below' =>
          have same := read_entry_agrees free id _ _ top top'
          cases same
          rw [ih below']

end TwoStores

/-! ## Walks that end -/

section Walks

variable {ls : Lifestream} {device : Device}

/-- The entry names the one before it. -/
def Behind (ls : Lifestream) (device : Device) (id before : ObjectId) : Prop :=
  ∃ entry, readEntry ls device id = .ok (entry, some before)

/-- Somewhere behind the head an entry is behind itself. -/
def Endless (ls : Lifestream) (device : Device) (head : ObjectId) : Prop :=
  ∃ id, Relation.ReflTransGen (Behind ls device) head id ∧ Relation.TransGen (Behind ls device) id id

/-- An error that a call comes back with. -/
def Error.Ends (error : Error) : Prop := error ≠ .diverged

theorem end_of_record_ends : endOfRecord.Ends := nofun

theorem corrupt_ends (message : String) : (Error.corrupt message).Ends := nofun

theorem fails_str : FailsWith Error.Ends readStr :=
  (fails_u32 end_of_record_ends).bind fun _ => fails_utf8 end_of_record_ends (corrupt_ends _) _

theorem fails_rights : FailsWith Error.Ends readRights :=
  (fails_u32 end_of_record_ends).bind fun _ => FailsWith.pure _

theorem fails_opt_u64 : FailsWith Error.Ends readOptU64 := by
  apply (fails_u8 end_of_record_ends).bind
  intro present
  split
  · exact FailsWith.pure _
  · exact (fails_u64 end_of_record_ends).bind fun _ => FailsWith.pure _

theorem fails_opt_u32 : FailsWith Error.Ends readOptU32 := by
  apply (fails_u8 end_of_record_ends).bind
  intro present
  split
  · exact FailsWith.pure _
  · exact (fails_u32 end_of_record_ends).bind fun _ => FailsWith.pure _

theorem fails_resource : FailsWith Error.Ends decodeResource := by
  apply (fails_u8 end_of_record_ends).bind
  intro tag
  unfold decodeResourceBody
  split_ifs
  · exact fails_str.bind fun _ => FailsWith.pure _
  · exact fails_str.bind fun _ => (fails_u16 end_of_record_ends).bind fun _ => FailsWith.pure _
  · exact fails_str.bind fun _ => FailsWith.pure _
  · exact fails_str.bind fun _ => fails_str.bind fun _ => FailsWith.pure _
  · exact FailsWith.throw (corrupt_ends _)

theorem fails_event : FailsWith Error.Ends decodeEvent := by
  apply (fails_u8 end_of_record_ends).bind
  intro tag
  unfold decodeEventBody
  split_ifs
  · apply (fails_fixed end_of_record_ends 16).bind
    intro grant
    apply fails_str.bind
    intro principal
    apply fails_resource.bind
    intro resource
    apply fails_rights.bind
    intro rights
    exact fails_opt_u64.bind fun _ => fails_opt_u32.bind fun _ => FailsWith.pure _
  · apply (fails_fixed end_of_record_ends 16).bind
    intro grant
    apply fails_str.bind
    intro principal
    exact fails_resource.bind fun _ => fails_rights.bind fun _ => FailsWith.pure _
  · apply fails_str.bind
    intro principal
    apply fails_resource.bind
    intro resource
    exact fails_rights.bind fun _ => fails_str.bind fun _ => FailsWith.pure _
  · exact (fails_fixed end_of_record_ends 16).bind fun _ => FailsWith.pure _
  · exact FailsWith.throw (corrupt_ends _)

theorem fails_payload : FailsWith Error.Ends readPayload := by
  apply (fails_u8 end_of_record_ends).bind
  intro version
  split
  · exact FailsWith.throw (corrupt_ends _)
  · apply (fails_u64 end_of_record_ends).bind
    intro seq
    apply (fails_u64 end_of_record_ends).bind
    intro timeUnix
    exact fails_event.bind fun _ => FailsWith.pure _

/-- Reading one entry always ends. -/
theorem read_entry_ends (id : ObjectId) : readEntry ls device id ≠ .error .diverged := by
  have lifted : ∀ {α : Type} (result : Except Lifestream.Error α),
      fromLifestream result ≠ .error .diverged := by
    intro α result failed
    cases result <;> cases failed
  intro failed
  rw [readEntry] at failed
  cases got : fromLifestream (ls.get device id) with
  | error error =>
      rw [got] at failed
      cases failed
      exact lifted _ got
  | ok object =>
      rw [got] at failed
      cases object with
      | tree entries =>
          simp only [bind, Except.bind] at failed
          split at failed
          · cases failed
          · next payloadId _ =>
            cases bytes : fromLifestream (ls.readBytes device payloadId) with
            | error error =>
                rw [bytes] at failed
                cases failed
                exact lifted _ bytes
            | ok payload =>
                rw [bytes] at failed
                cases decoded : readPayload payload with
                | error error =>
                    change (decodePayload payload >>= _) = _ at failed
                    rw [decodePayload, decoded] at failed
                    cases failed
                    exact fails_payload payload _ decoded rfl
                | ok pair =>
                    change (decodePayload payload >>= _) = _ at failed
                    rw [decodePayload, decoded] at failed
                    cases failed
      | chunk data => cases failed
      | file chunks => cases failed
      | generation generation => cases failed

/-- A walk that runs out of fuel has found one entry behind the other all the way. -/
theorem walk_trail (fuel : Nat) (id : ObjectId)
    (walked : walkChain ls device fuel id = .error .diverged) :
    ∃ trail : List ObjectId, trail.length = fuel ∧ (id :: trail).IsChain (Behind ls device) := by
  induction fuel generalizing id with
  | zero => exact ⟨[], rfl, List.IsChain.singleton id⟩
  | succ fuel ih =>
      rw [walkChain] at walked
      cases read : readEntry ls device id with
      | error error =>
          rw [read] at walked
          cases walked
          exact absurd read (read_entry_ends id)
      | ok pair =>
          obtain ⟨entry, prev⟩ := pair
          rw [read] at walked
          cases prev with
          | none => cases walked
          | some before =>
              change (walkChain ls device fuel before >>= _) = _ at walked
              cases rest : walkChain ls device fuel before with
              | ok entries =>
                  rw [rest] at walked
                  cases walked
              | error error =>
                  rw [rest] at walked
                  cases walked
                  obtain ⟨trail, length, chain⟩ := ih before rest
                  refine ⟨before :: trail, congrArg Nat.succ length, ?_⟩
                  exact List.isChain_cons_cons.mpr ⟨⟨entry, read⟩, chain⟩

/-- Everything on a trail but its end is in the store. -/
theorem trail_present (trail : List ObjectId) (id : ObjectId)
    (chain : (id :: trail).IsChain (Behind ls device)) :
    (id :: trail).dropLast ⊆ device.objects.keys := by
  induction trail generalizing id with
  | nil => exact List.nil_subset _
  | cons before trail ih =>
      obtain ⟨⟨entry, read⟩, rest⟩ := List.isChain_cons_cons.mp chain
      rw [List.dropLast_cons_cons]
      exact List.cons_subset.mpr ⟨read_entry_present read, ih before rest⟩

theorem trail_endless (trail : List ObjectId) (id : ObjectId)
    (chain : (id :: trail).IsChain (Behind ls device))
    (long : device.objects.keys.length < trail.length) : Endless ls device id := by
  have repeats : ¬((id :: trail).dropLast).Nodup := by
    intro distinct
    have bound := (List.subperm_of_subset distinct (trail_present trail id chain)).length_le
    rw [List.length_dropLast, List.length_cons, Nat.add_sub_cancel] at bound
    omega
  obtain ⟨twice, duplicate⟩ := List.exists_duplicate_iff_not_nodup.mpr repeats
  have inside := (List.duplicate_iff_sublist.mp duplicate).trans (List.dropLast_sublist _)
  have ordered : (id :: trail).Pairwise (Relation.TransGen (Behind ls device)) :=
    List.isChain_iff_pairwise.mp (chain.imp fun _ _ => Relation.TransGen.single)
  refine ⟨twice, ?_, ?_⟩
  · rcases List.mem_cons.mp (inside.mem List.mem_cons_self) with same | later
    · rw [same]
    · exact ((List.pairwise_cons.mp ordered).1 twice later).to_reflTransGen
  · exact (List.pairwise_cons.mp (ordered.sublist inside)).1 twice List.mem_cons_self

/-- An endless chain is never walked to its end. -/
theorem endless_diverges (fuel : Nat) (head : ObjectId) (endless : Endless ls device head) :
    walkChain ls device fuel head = .error .diverged := by
  induction fuel generalizing head with
  | zero => rfl
  | succ fuel ih =>
      obtain ⟨id, reached, again⟩ := endless
      -- From the head, one step on leads to a place from which the same circle is reached.
      have onward : ∃ before, Behind ls device head before ∧ Endless ls device before := by
        rcases Relation.ReflTransGen.cases_head reached with same | ⟨before, step, later⟩
        · subst same
          obtain ⟨before, step, rest⟩ := Relation.TransGen.head'_iff.mp again
          exact ⟨before, step, head, rest, again⟩
        · exact ⟨before, step, id, later, again⟩
      obtain ⟨before, ⟨entry, read⟩, endless'⟩ := onward
      rw [walkChain, read]
      change (walkChain ls device fuel before >>= _) = _
      rw [ih before endless']
      rfl

/-- The walk ends exactly where no entry is behind itself; as much fuel as the store has
objects, and one more, is then enough. -/
theorem walk_ends_iff (head : ObjectId) :
    (∃ fuel, walkChain ls device fuel head ≠ .error .diverged) ↔ ¬Endless ls device head := by
  constructor
  · rintro ⟨fuel, ends⟩ endless
    exact ends (endless_diverges fuel head endless)
  · intro finite
    refine ⟨device.objects.keys.length + 1, fun walked => finite ?_⟩
    obtain ⟨trail, length, chain⟩ := walk_trail _ head walked
    exact trail_endless trail head chain (length ▸ Nat.lt_succ_self _)

end Walks

/-! ## The evidence -/

/-- The call comes back, however long it may take. -/
def Broker.Terminates (broker : Broker) (device : Device) : Prop :=
  ∀ head, broker.head = some head → ∃ fuel, walkChain broker.ls device fuel head ≠ .error .diverged

theorem terminates_iff (broker : Broker) (device : Device) : broker.Terminates device ↔
    ∀ head, broker.head = some head → ¬Endless broker.ls device head :=
  forall₂_congr fun head _ => walk_ends_iff head

/-- Two stores that verify from one head have one log; what verifies is the whole chain, numbered
from the oldest; and the call comes back wherever no entry behind the head is behind itself. -/
theorem audit_evidence :
    (∀ (one other : Broker) (left right : Device) (count count' : Nat), one.ls = other.ls →
      one.head = other.head → NoCollision one.ls.store left right →
      one.verify left = .ok count → other.verify right = .ok count' →
        ∃ entries, one.audit left = .ok entries ∧ other.audit right = .ok entries) ∧
    (∀ (broker : Broker) (device : Device) (count : Nat), broker.verify device = .ok count ↔
      ∃ entries, ChainOf broker.ls device broker.head entries.reverse ∧ Numbered entries ∧
        entries.length = count) ∧
    ∀ (broker : Broker) (device : Device), broker.Terminates device ↔
      ∀ head, broker.head = some head → ¬Endless broker.ls device head := by
  refine ⟨?_, verify_ok, terminates_iff⟩
  intro one other left right count count' identity head free verified verified'
  obtain ⟨entries, chain, _, _⟩ := (verify_ok one left count).mp verified
  obtain ⟨entries', chain', _, _⟩ := (verify_ok other right count').mp verified'
  rw [← identity, ← head] at chain'
  have same := List.reverse_injective (chains_agree free chain chain')
  refine ⟨entries, (audit_ok one left entries).mpr chain, (audit_ok other right entries).mpr ?_⟩
  rw [same, ← identity, ← head]
  exact chain'

/-! ### A log, and one that never ends -/

def sampleEvent : Event := .revoke (FixedBytes.ofBytes 16 [5])

/-- A store with one entry in its log. -/
def oneEntry : Device := finalState (append sampleStore none 0 10 sampleEvent Device.fresh)

def oneEntryBroker : Broker where
  ls := sampleStore
  policy := .denyAll
  head := oneEntry.objects.keys.head?
  seq := 1
  grants := ∅

theorem same_store_no_collision (store : ObjectStore) (device : Device) :
    NoCollision store device device := by
  intro id id' one other got got' same
  rw [get_address got, get_address got'] at same
  rw [same, got'] at got
  exact (Except.ok.inj got).symm

theorem one_entry_evidence : ∃ entries, oneEntryBroker.audit oneEntry = .ok entries ∧
    oneEntryBroker.audit oneEntry = .ok entries :=
  audit_evidence.1 oneEntryBroker oneEntryBroker oneEntry oneEntry 1 1 rfl rfl
    (same_store_no_collision _ _) (by decide +kernel) (by decide +kernel)

def loopId : ObjectId := ⟨List.replicate 32 7, by decide⟩

/-- The entry's tree, which names itself as the entry before. -/
def loopTree : Bytes :=
  let chunk := sampleStore.store.idOf (Object.chunk (encodePayload 0 10 sampleEvent)).encode
  let payload := sampleStore.store.idOf (Object.file [chunk]).encode
  (Object.tree (entryChildren payload (some loopId))).encode

/-- A hash under which that tree's address is the one it names. -/
def loopHash (key : Key) (message : Bytes) : ObjectId :=
  if message = loopTree then loopId else sampleHash key message

def loopStore : Lifestream :=
  ⟨⟨sampleCryptoWith loopHash, sampleStore.store.keys⟩⟩

def loopDevice : Device := finalState (append loopStore (some loopId) 0 10 sampleEvent Device.fresh)

def loopBroker : Broker where
  ls := loopStore
  policy := .denyAll
  head := some loopId
  seq := 1
  grants := ∅

theorem loop_never_ends : ¬∀ (broker : Broker) (device : Device),
    NoCollision broker.ls.store device device → broker.Terminates device := by
  intro ends
  have read : (readEntry loopStore loopDevice loopId).map Prod.snd = .ok (some loopId) := by
    decide +kernel
  cases entry : readEntry loopStore loopDevice loopId with
  | error error =>
      rw [entry] at read
      cases read
  | ok pair =>
      rw [entry] at read
      obtain ⟨found, prev⟩ := pair
      cases read
      have itself : Behind loopStore loopDevice loopId loopId := ⟨found, entry⟩
      apply (terminates_iff loopBroker loopDevice).mp (ends _ _ (same_store_no_collision _ _)) loopId rfl
      exact ⟨loopId, .refl, .single itself⟩

end HorizonOs.Weave
