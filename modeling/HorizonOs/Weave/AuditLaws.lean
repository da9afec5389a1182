import HorizonOs.Weave.Audit
import Mathlib.Data.List.Perm.Subperm

/-!
# What the audit log reads back

The codec round trip, and chains: a chain that is linked in the store reads
back as the entries it was linked from, however many other objects lie beside
it.
-/

namespace HorizonOs.Weave

open HorizonOs.Lib.ByteCodec HorizonOs.Lib.Text HorizonOs.Lib.Runs
open HorizonOs.Lifestream

set_option autoImplicit false

/-! ## What the codec keeps of an event -/

/-- A resource as the log writes it: a path becomes text, losing what is not UTF-8. -/
def Resource.persisted : Resource → Resource
  | .file path => .file (utf8 (lossyPath path))
  | .net host port => .net host port
  | .device name => .device name
  | .service name action => .service name action

def Event.persisted : Event → Event
  | .grant id principal resource rights expiresUnix maxUses =>
      .grant id principal resource.persisted rights expiresUnix maxUses
  | .use id principal resource rights => .use id principal resource.persisted rights
  | .deny principal resource rights reason => .deny principal resource.persisted rights reason
  | .revoke id => .revoke id

def AuditEntry.persisted (entry : AuditEntry) : AuditEntry :=
  { entry with event := entry.event.persisted }

/-- A string whose length a `u32` holds. -/
def strFits (text : String) : Prop := (utf8 text).length < 2 ^ 32

def Resource.Fits : Resource → Prop
  | .file path => strFits (lossyPath path)
  | .net host _ => strFits host
  | .device name => strFits name
  | .service name action => strFits name ∧ strFits action

/-- Every string of the event fits its length prefix. -/
def Event.Fits : Event → Prop
  | .grant _ principal resource _ _ _ => strFits principal ∧ resource.Fits
  | .use _ principal resource _ => strFits principal ∧ resource.Fits
  | .deny principal resource _ reason => strFits principal ∧ resource.Fits ∧ strFits reason
  | .revoke _ => True

/-- A file's path is text. -/
def Resource.Utf8Path : Resource → Prop
  | .file path => (fromUtf8 path).isSome = true
  | .net _ _ => True
  | .device _ => True
  | .service _ _ => True

instance : DecidablePred strFits := fun text =>
  inferInstanceAs (Decidable ((utf8 text).length < 2 ^ 32))

instance : DecidablePred Resource.Fits
  | .file path => inferInstanceAs (Decidable (strFits (lossyPath path)))
  | .net host _ => inferInstanceAs (Decidable (strFits host))
  | .device name => inferInstanceAs (Decidable (strFits name))
  | .service name action => inferInstanceAs (Decidable (strFits name ∧ strFits action))

instance : DecidablePred Event.Fits
  | .grant _ principal resource _ _ _ =>
      inferInstanceAs (Decidable (strFits principal ∧ resource.Fits))
  | .use _ principal resource _ => inferInstanceAs (Decidable (strFits principal ∧ resource.Fits))
  | .deny principal resource _ reason =>
      inferInstanceAs (Decidable (strFits principal ∧ resource.Fits ∧ strFits reason))
  | .revoke _ => inferInstanceAs (Decidable True)

instance : DecidablePred Resource.Utf8Path
  | .file path => inferInstanceAs (Decidable ((fromUtf8 path).isSome = true))
  | .net _ _ => inferInstanceAs (Decidable True)
  | .device _ => inferInstanceAs (Decidable True)
  | .service _ _ => inferInstanceAs (Decidable True)

/-- A path that is text is not changed by being written as text. -/
theorem persisted_of_utf8 (resource : Resource) (textual : resource.Utf8Path) :
    resource.persisted = resource := by
  cases resource with
  | file path =>
      obtain ⟨text, decoded⟩ := Option.isSome_iff_exists.mp textual
      rw [← utf8_of_from_utf8 decoded, Resource.persisted, lossyPath, from_utf8_lossy_utf8]
  | net host port => rfl
  | device name => rfl
  | service name action => rfl

/-! ## Codec round trip -/

theorem decodes_str (text : String) (fits : strFits text) :
    Decodes readStr (encodeText text) text := by
  have length : (UInt32.ofNat (utf8 text).length).toNat = (utf8 text).length := by
    rw [UInt32.toNat_ofNat', Nat.mod_eq_of_lt fits]
  refine (decodes_u32 endOfRecord _).bind ?_
  rw [length]
  exact decodes_utf8 endOfRecord _ text

theorem decodes_opt_u64 (value : Option UInt64) :
    Decodes readOptU64 (encodeOptU64 value) value := by
  cases value with
  | none => exact (decodes_u8 endOfRecord 0).bind (t := []) (Decodes.pure none)
  | some value =>
      exact (decodes_u8 endOfRecord 1).bind ((decodes_u64 endOfRecord value).map some)

theorem decodes_opt_u32 (value : Option UInt32) :
    Decodes readOptU32 (encodeOptU32 value) value := by
  cases value with
  | none => exact (decodes_u8 endOfRecord 0).bind (t := []) (Decodes.pure none)
  | some value =>
      exact (decodes_u8 endOfRecord 1).bind ((decodes_u32 endOfRecord value).map some)

theorem decodes_rights (rights : Rights) : Decodes readRights (encodeU32 rights.bits) rights := by
  have read := (decodes_u32 endOfRecord rights.bits).map Rights.fromBits
  rwa [Rights.from_bits_bits] at read

theorem decodes_resource (resource : Resource) (fits : resource.Fits) :
    Decodes decodeResource (encodeResource resource) resource.persisted := by
  cases resource with
  | file path =>
      exact (decodes_u8 endOfRecord 1).bind
        ((decodes_str _ fits).map fun text => Resource.file (utf8 text))
  | net host port =>
      exact (decodes_u8 endOfRecord 2).bind ((decodes_str host fits).bind
        ((decodes_u16 endOfRecord port).map fun port => Resource.net host port))
  | device name =>
      exact (decodes_u8 endOfRecord 3).bind ((decodes_str name fits).map Resource.device)
  | service name action =>
      exact (decodes_u8 endOfRecord 4).bind ((decodes_str name fits.1).bind
        ((decodes_str action fits.2).map fun action => Resource.service name action))

theorem decodes_event (event : Event) (fits : event.Fits) :
    Decodes decodeEvent (encodeEvent event) event.persisted := by
  cases event with
  | grant grant principal resource rights expiresUnix maxUses =>
      exact (decodes_u8 endOfRecord 1).bind ((decodes_fixed endOfRecord grant).bind
        ((decodes_str principal fits.1).bind ((decodes_resource resource fits.2).bind
          ((decodes_rights rights).bind ((decodes_opt_u64 expiresUnix).bind
            ((decodes_opt_u32 maxUses).map fun maxUses =>
              Event.grant grant principal resource.persisted rights expiresUnix maxUses))))))
  | use grant principal resource rights =>
      exact (decodes_u8 endOfRecord 2).bind ((decodes_fixed endOfRecord grant).bind
        ((decodes_str principal fits.1).bind ((decodes_resource resource fits.2).bind
          ((decodes_rights rights).map fun rights =>
            Event.use grant principal resource.persisted rights))))
  | deny principal resource rights reason =>
      exact (decodes_u8 endOfRecord 3).bind ((decodes_str principal fits.1).bind
        ((decodes_resource resource fits.2.1).bind ((decodes_rights rights).bind
          ((decodes_str reason fits.2.2).map fun reason =>
            Event.deny principal resource.persisted rights reason))))
  | revoke grant =>
      exact (decodes_u8 endOfRecord 4).bind ((decodes_fixed endOfRecord grant).map Event.revoke)

theorem decode_encode_payload (seq timeUnix : UInt64) (event : Event) (fits : event.Fits) :
    decodePayload (encodePayload seq timeUnix event) = .ok (seq, timeUnix, event.persisted) := by
  have whole : Decodes readPayload (encodePayload seq timeUnix event)
      (seq, timeUnix, event.persisted) :=
    (decodes_u8 endOfRecord payloadVersion).bind ((decodes_u64 endOfRecord seq).bind
      ((decodes_u64 endOfRecord timeUnix).bind
        ((decodes_event event fits).map fun event => (seq, timeUnix, event))))
  have read := whole []
  rw [List.append_nil] at read
  rw [decodePayload, read]
  rfl

/-! ## Payload sizes -/

theorem encode_text_length (text : String) : (encodeText text).length = 4 + (utf8 text).length := by
  simp [encodeText, encodeU32]

theorem encode_resource_length (resource : Resource) (fits : resource.Fits) :
    (encodeResource resource).length < 2 ^ 34 := by
  cases resource <;>
    simp only [Resource.Fits, strFits] at fits <;>
    simp only [encodeResource, List.length_append, encode_text_length, encodeU16,
      encode_be_length, List.length_singleton] <;>
    omega

theorem encode_event_length (event : Event) (fits : event.Fits) :
    (encodeEvent event).length < 2 ^ 35 := by
  have optional64 : ∀ value, (encodeOptU64 value).length ≤ 9 := by
    intro value
    cases value <;> simp [encodeOptU64, encodeU64]
  have optional32 : ∀ value, (encodeOptU32 value).length ≤ 5 := by
    intro value
    cases value <;> simp [encodeOptU32, encodeU32]
  have rightsLength : ∀ rights : Rights, (encodeU32 rights.bits).length = 4 :=
    fun rights => encode_be_length _ _
  cases event with
  | grant grant principal resource rights expiresUnix maxUses =>
      have scope := encode_resource_length resource fits.2
      have name : (utf8 principal).length < 2 ^ 32 := fits.1
      have first := optional64 expiresUnix
      have second := optional32 maxUses
      simp only [encodeEvent, List.length_append, encode_text_length, rightsLength, grant.size,
        List.length_singleton]
      omega
  | use grant principal resource rights =>
      have scope := encode_resource_length resource fits.2
      have name : (utf8 principal).length < 2 ^ 32 := fits.1
      simp only [encodeEvent, List.length_append, encode_text_length, rightsLength, grant.size,
        List.length_singleton]
      omega
  | deny principal resource rights reason =>
      have scope := encode_resource_length resource fits.2.1
      have name : (utf8 principal).length < 2 ^ 32 := fits.1
      have cause : (utf8 reason).length < 2 ^ 32 := fits.2.2
      simp only [encodeEvent, List.length_append, encode_text_length, rightsLength,
        List.length_singleton]
      omega
  | revoke grant =>
      simp only [encodeEvent, List.length_append, grant.size, List.length_singleton]
      omega

theorem encode_payload_length (seq timeUnix : UInt64) (event : Event) (fits : event.Fits) :
    (encodePayload seq timeUnix event).length < 2 ^ 36 := by
  have body := encode_event_length event fits
  simp only [encodePayload, encodeU64, List.length_append, encode_be_length,
    List.length_singleton]
  omega

/-! ## Chains -/

/-- The store holds this entry, with `prev` before it. -/
structure EntryAt (ls : Lifestream) (device : Device) (entry : AuditEntry)
    (prev : Option ObjectId) : Prop where
  fits : entry.event.Fits
  held : ∃ payloadId, Holds ls device (.tree (entryChildren payloadId prev)) entry.id ∧
    HoldsBytes ls device (encodePayload entry.seq entry.timeUnix entry.event) payloadId

/-- The chain of these entries, newest first, is linked in the store from this
head. -/
inductive Linked (ls : Lifestream) (device : Device) : Option ObjectId → List AuditEntry → Prop
  | nil : Linked ls device none []
  | cons (entry : AuditEntry) (prev : Option ObjectId) (rest : List AuditEntry)
      (top : EntryAt ls device entry prev) (below : Linked ls device prev rest) :
      Linked ls device (some entry.id) (entry :: rest)

theorem Linked.grow {ls : Lifestream} {before after : Device} {head : Option ObjectId}
    {entries : List AuditEntry} (linked : Linked ls before head entries)
    (grows : Keeps ls.store before after) : Linked ls after head entries := by
  induction linked with
  | nil => exact .nil
  | cons entry prev rest top _ ih =>
      obtain ⟨payloadId, tree, payload⟩ := top.held
      exact .cons entry prev rest
        ⟨top.fits, payloadId, tree.grow grows, payload.grow grows⟩ ih

theorem children_fit (payloadId : ObjectId) (prev : Option ObjectId) :
    (Object.tree (entryChildren payloadId prev)).Fits := by
  have payloadName : (utf8 childPayload).length < 2 ^ 16 := by decide
  have prevName : (utf8 childPrev).length < 2 ^ 16 := by decide
  cases prev with
  | none => simpa [Object.Fits, entryChildren] using payloadName
  | some id => simpa [Object.Fits, entryChildren] using ⟨payloadName, prevName⟩

theorem child_payload (payloadId : ObjectId) (prev : Option ObjectId) :
    childNamed childPayload (entryChildren payloadId prev) = some payloadId := by
  simp [childNamed, entryChildren]

theorem child_prev (payloadId : ObjectId) (prev : Option ObjectId) :
    childNamed childPrev (entryChildren payloadId prev) = prev := by
  have different : childPayload ≠ childPrev := by decide
  cases prev <;> simp [childNamed, entryChildren, different]

theorem of_from_lifestream {α : Type} {result : Except Lifestream.Error α} {value : α}
    (lifted : fromLifestream result = .ok value) : result = .ok value := by
  cases result with
  | ok other =>
      cases lifted
      rfl
  | error error => cases lifted

theorem from_lifestream_ok {α : Type} {result : Except Lifestream.Error α} {value : α}
    (read : result = .ok value) : fromLifestream result = .ok value := by
  rw [read]
  rfl

/-- Reading an entry whose tree and payload the store holds is decoding the payload. -/
theorem read_entry_held (ls : Lifestream) (device : Device) (id payloadId : ObjectId)
    (prev : Option ObjectId) (payload : Bytes) (sound : Sound ls.store device)
    (free : CollisionFree ls.store device) (readable : device.Readable)
    (tree : Holds ls device (.tree (entryChildren payloadId prev)) id)
    (held : HoldsBytes ls device payload payloadId) :
    readEntry ls device id = (decodePayload payload).map fun decoded =>
      ({ id, seq := decoded.1, timeUnix := decoded.2.1, event := decoded.2.2 }, prev) := by
  have object := (get_holds ls device _ _ sound free tree).of_readable readable
  have bytes := (read_bytes_holds ls device _ _ sound free held).of_readable readable
  simp only [readEntry, object, fromLifestream, child_payload, child_prev, bytes, bind, Except.bind]
  cases decodePayload payload <;> rfl

theorem read_entry_linked (ls : Lifestream) (device : Device) (entry : AuditEntry)
    (prev : Option ObjectId) (sound : Sound ls.store device)
    (free : CollisionFree ls.store device) (top : EntryAt ls device entry prev) :
    Reads device (readEntry ls device entry.id) (entry.persisted, prev) := by
  obtain ⟨payloadId, tree, payload⟩ := top.held
  have lifted : ∀ {α : Type} {result : Except Lifestream.Error α} {value : α},
      Reads device result value → Reads device (fromLifestream result) value := by
    rintro α result value (rfl | ⟨unreadable, error, rfl⟩)
    · exact .inl rfl
    · exact .inr ⟨unreadable, .lifestream error, rfl⟩
  refine (lifted (get_holds ls device _ _ sound free tree)).bind ?_
  simp only [child_payload, child_prev]
  refine (lifted (read_bytes_holds ls device _ _ sound free payload)).bind ?_
  rw [decode_encode_payload _ _ _ top.fits]
  exact .inl rfl

theorem walk_linked (ls : Lifestream) (device : Device) (head : ObjectId)
    (entries : List AuditEntry) (sound : Sound ls.store device)
    (free : CollisionFree ls.store device) (linked : Linked ls device (some head) entries) :
    ∀ fuel, entries.length ≤ fuel →
      Reads device (walkChain ls device fuel head) (entries.map AuditEntry.persisted) := by
  intro fuel
  induction fuel generalizing head entries with
  | zero =>
      intro enough
      cases linked
      simp at enough
  | succ fuel ih =>
      intro enough
      cases linked with
      | cons entry prev rest top below =>
          refine (read_entry_linked ls device entry prev sound free top).bind ?_
          cases prev with
          | none =>
              cases below
              exact .inl rfl
          | some before =>
              have shorter : rest.length ≤ fuel := by simpa using enough
              exact (ih before rest below shorter).bind (.inl rfl)

/-! ## A chain never meets an entry twice -/

theorem entry_at_prev_unique (ls : Lifestream) (device : Device) (left right : AuditEntry)
    (leftPrev rightPrev : Option ObjectId) (free : CollisionFree ls.store device)
    (same : left.id = right.id) (atLeft : EntryAt ls device left leftPrev)
    (atRight : EntryAt ls device right rightPrev) : leftPrev = rightPrev := by
  obtain ⟨leftPayload, leftTree, _⟩ := atLeft.held
  obtain ⟨rightPayload, rightTree, _⟩ := atRight.held
  have encoded := free _ leftTree.stored.offered _ rightTree.stored.offered
    (by rw [← leftTree.address, ← rightTree.address, same])
  have leftDecoded := decode_encode_object _ leftTree.fits
  rw [encoded, decode_encode_object _ rightTree.fits] at leftDecoded
  injection leftDecoded with trees
  injection trees with children
  rw [← child_prev leftPayload leftPrev, ← children, child_prev]

theorem linked_length_unique (ls : Lifestream) (device : Device) (head : Option ObjectId)
    (left right : List AuditEntry) (free : CollisionFree ls.store device)
    (linkedLeft : Linked ls device head left) (linkedRight : Linked ls device head right) :
    left.length = right.length := by
  induction linkedLeft generalizing right with
  | nil =>
      cases linkedRight
      rfl
  | cons entry prev rest top below ih =>
      generalize same : some entry.id = start at linkedRight
      cases linkedRight with
      | nil => contradiction
      | cons other otherPrev otherRest otherTop otherBelow =>
          have previous := entry_at_prev_unique ls device entry other prev otherPrev free
            (Option.some.inj same) top otherTop
          subst previous
          simp [ih otherRest otherBelow]

/-- Every entry of a chain heads the chain of what lies below it. -/
theorem linked_below (ls : Lifestream) (device : Device) (head : Option ObjectId)
    (entries : List AuditEntry) (linked : Linked ls device head entries) :
    ∀ entry ∈ entries, ∃ rest, Linked ls device (some entry.id) (entry :: rest) ∧
      (entry :: rest).length ≤ entries.length := by
  induction linked with
  | nil => simp
  | cons entry prev rest top below ih =>
      intro other member
      rcases List.mem_cons.mp member with rfl | deeper
      · exact ⟨rest, .cons other prev rest top below, le_refl _⟩
      · obtain ⟨tail, linkedTail, bound⟩ := ih other deeper
        exact ⟨tail, linkedTail, le_trans bound (by simp)⟩

theorem linked_ids_nodup (ls : Lifestream) (device : Device) (head : Option ObjectId)
    (entries : List AuditEntry) (free : CollisionFree ls.store device)
    (linked : Linked ls device head entries) : (entries.map AuditEntry.id).Nodup := by
  induction linked with
  | nil => exact List.nodup_nil
  | cons entry prev rest top below ih =>
      rw [List.map_cons, List.nodup_cons]
      refine ⟨?_, ih⟩
      intro member
      obtain ⟨other, inside, same⟩ := List.mem_map.mp member
      obtain ⟨tail, linkedTail, bound⟩ := linked_below ls device prev rest below other inside
      rw [same] at linkedTail
      have length := linked_length_unique ls device (some entry.id) _ _ free
        (.cons entry prev rest top below) linkedTail
      simp only [List.length_cons] at length bound
      omega

/-- A linked chain is no longer than the store has objects. -/
theorem linked_length_le (ls : Lifestream) (device : Device) (head : Option ObjectId)
    (entries : List AuditEntry) (free : CollisionFree ls.store device)
    (linked : Linked ls device head entries) : entries.length ≤ device.objects.keys.length := by
  have distinct := linked_ids_nodup ls device head entries free linked
  have present : (entries.map AuditEntry.id) ⊆ device.objects.keys := by
    intro id member
    obtain ⟨entry, inside, rfl⟩ := List.mem_map.mp member
    obtain ⟨rest, linkedTail, _⟩ := linked_below ls device head entries linked entry inside
    generalize same : some entry.id = start at linkedTail
    cases linkedTail with
    | cons _ prev _ top _ =>
        obtain ⟨payloadId, tree, _⟩ := top.held
        have found := tree.stored.present
        rw [← tree.address] at found
        exact AList.lookup_isSome.mp found
  have bound := (List.subperm_of_subset distinct present).length_le
  rwa [List.length_map] at bound

/-- What is linked from a head is what the chain reads as. -/
theorem read_chain_linked (ls : Lifestream) (device : Device) (head : ObjectId)
    (entries : List AuditEntry) (sound : Sound ls.store device)
    (free : CollisionFree ls.store device) (linked : Linked ls device (some head) entries) :
    Reads device (readChain ls device head) (entries.map AuditEntry.persisted).reverse := by
  have bound := linked_length_le ls device (some head) entries free linked
  refine (walk_linked ls device head entries sound free linked _ (by omega)).bind ?_
  exact .inl rfl

/-! ## Appending -/

theorem advances_append (ls : Lifestream) (prev : Option ObjectId) (seq timeUnix : UInt64)
    (event : Event) : Preserves (Advances ls.store) (append ls prev seq timeUnix event) :=
  Preserves.bind (Advances.trans ls.store) (advances_write_bytes ls _) fun _ =>
    advances_put ls.store _

/-- A successful append holds the entry's tree and payload. -/
theorem append_holds (ls : Lifestream) (prev : Option ObjectId) (seq timeUnix : UInt64)
    (event : Event) (size : (encodePayload seq timeUnix event).length < 2 ^ 42)
    (device after : Device) (id : ObjectId)
    (appended : append ls prev seq timeUnix event device = .ok id after) :
    ∃ payloadId, Holds ls after (.tree (entryChildren payloadId prev)) id ∧
      HoldsBytes ls after (encodePayload seq timeUnix event) payloadId := by
  simp only [append, bind_apply] at appended
  split at appended
  case h_2 => contradiction
  case h_1 payloadId middle wrote =>
    have payload := write_bytes_holds ls _ size device middle payloadId wrote
    have moved := advances_put ls.store (Object.tree (entryChildren payloadId prev)).encode middle
    change Advances ls.store middle (finalState (ls.put (.tree _) middle)) at moved
    rw [appended] at moved
    exact ⟨payloadId, put_holds ls _ (children_fit payloadId prev) middle after id appended,
      payload.grow moved.toKeeps⟩

/-- A successful append links the new entry onto the chain it was given. -/
theorem append_links (ls : Lifestream) (prev : Option ObjectId) (seq timeUnix : UInt64)
    (event : Event) (fits : event.Fits) (device after : Device) (id : ObjectId)
    (entries : List AuditEntry) (linked : Linked ls device prev entries)
    (appended : append ls prev seq timeUnix event device = .ok id after) :
    Linked ls after (some id) ({ id, seq, timeUnix, event } :: entries) := by
  have advances := advances_append ls prev seq timeUnix event device
  rw [appended] at advances
  have size := encode_payload_length seq timeUnix event fits
  exact .cons ⟨id, seq, timeUnix, event⟩ prev entries
    ⟨fits, append_holds ls prev seq timeUnix event (by omega) device after id appended⟩
    (linked.grow advances.toKeeps)

/-- What an append offers to the store: the payload's chunks, one file and one tree. -/
theorem append_written (ls : Lifestream) (prev : Option ObjectId) (seq timeUnix : UInt64)
    (event : Event) (device after : Device) (id : ObjectId)
    (appended : append ls prev seq timeUnix event device = .ok id after) :
    ∃ ids payloadId, ∀ plaintext ∈ after.written,
      plaintext = (Object.tree (entryChildren payloadId prev)).encode ∨
        plaintext = (Object.file ids).encode ∨
        plaintext ∈ (split (encodePayload seq timeUnix event)).map (fun range =>
          (Object.chunk (slice (encodePayload seq timeUnix event) range)).encode) ∨
        plaintext ∈ device.written := by
  simp only [append, bind_apply] at appended
  split at appended
  case h_2 => contradiction
  case h_1 payloadId middle wrote =>
    obtain ⟨ids, below⟩ := write_bytes_written ls _ device middle payloadId wrote
    have tree := put_written ls.store (Object.tree (entryChildren payloadId prev)).encode middle
    change (finalState (ls.put (.tree (entryChildren payloadId prev)) middle)).written = _ at tree
    rw [appended, final_state_ok] at tree
    refine ⟨ids, payloadId, fun plaintext member => ?_⟩
    rw [tree, List.mem_cons] at member
    exact member.imp_right fun older => below plaintext older

/-- On an operating system that does not fail, an append succeeds. -/
theorem append_succeeds (ls : Lifestream) (prev : Option ObjectId) (seq timeUnix : UInt64)
    (event : Event) (size : (encodePayload seq timeUnix event).length < 2 ^ 37)
    (device : Device) (faultless : device.faults = []) :
    ∃ id after, append ls prev seq timeUnix event device = .ok id after := by
  obtain ⟨payloadId, middle, wrote⟩ := write_bytes_succeeds ls
    (encodePayload seq timeUnix event) (size.trans (by norm_num)) device faultless
  have advances := advances_write_bytes ls (encodePayload seq timeUnix event) device
  rw [wrote] at advances
  have short : (Object.tree (entryChildren payloadId prev)).encode.length ≤ maxMessage := by
    have payloadName : (utf8 childPayload).length = 7 := by decide
    have prevName : (utf8 childPrev).length = 4 := by decide
    cases prev <;>
      simp [Object.encode, entryChildren, TreeEntry.encode, encodeU16, encodeU32, maxMessage,
        payloadName, prevName]
  obtain ⟨after, put⟩ := put_succeeds ls.store _ middle (advances.faults faultless) short
  refine ⟨ls.store.idOf (Object.tree (entryChildren payloadId prev)).encode, after, ?_⟩
  simp only [append, Lifestream.put, bind_apply, wrote, put]

end HorizonOs.Weave
