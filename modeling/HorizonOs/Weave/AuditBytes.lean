import HorizonOs.Lifestream.ObjectBytes
import HorizonOs.Weave.Audit

/-!
# The bytes of an audit record

What the record codec accepts, beside what it writes: it masks the rights word, takes
any present flag but zero for one, and does not look behind the last field.
-/

namespace HorizonOs.Weave

open HorizonOs.Lib.ByteCodec HorizonOs.Lib.Text HorizonOs.Lib.Canonical
open HorizonOs.Lifestream

set_option autoImplicit false

/-! ## Fields of a record -/

def resourceSize (input : Bytes) : Nat :=
  let first := textSize (input.drop 1)
  if fieldAt input 0 1 = 2 then 1 + first + 2
  else if fieldAt input 0 1 = 4 then 1 + first + textSize (input.drop (1 + first))
  else 1 + first

def optionSize (width : Nat) (input : Bytes) : Nat :=
  if fieldAt input 0 1 = 0 then 1 else 1 + width

/-- Behind the tag of an event, and its grant where it has one. -/
def subjectOf (event : Bytes) : Bytes := event.drop (if fieldAt event 0 1 = 3 then 1 else 17)

/-- The bytes of an event from its rights word on: behind the principal and the resource. -/
def fromRightsOf (event : Bytes) : Bytes :=
  let resource := (subjectOf event).drop (textSize (subjectOf event))
  resource.drop (resourceSize resource)

def RightsKnown (fields : Bytes) : Prop := fieldAt fields 0 4 ≤ 7

def OptionKnown (input : Bytes) : Prop := fieldAt input 0 1 ≤ 1

/-- Of the two options behind a grant's rights word, where the second begins. -/
def usesAt (fields : Bytes) : Nat := 4 + optionSize 8 (fields.drop 4)

def grantSize (fields : Bytes) : Nat := usesAt fields + optionSize 4 (fields.drop (usesAt fields))

/-- The rights word has no unknown bit, the options are flagged by zero or one, and the bytes
end with the event's last field. -/
def EventWhole (event : Bytes) : Prop :=
  let fields := fromRightsOf event
  if fieldAt event 0 1 = 1 then
    RightsKnown fields ∧ OptionKnown (fields.drop 4) ∧ OptionKnown (fields.drop (usesAt fields)) ∧
      fields.length ≤ grantSize fields
  else if fieldAt event 0 1 = 2 then RightsKnown fields ∧ fields.length ≤ 4
  else if fieldAt event 0 1 = 3 then
    RightsKnown fields ∧ fields.length ≤ 4 + textSize (fields.drop 4)
  else event.length ≤ 17

/-- The event of a payload stands behind the version, the number and the time. -/
def PayloadWhole (buffer : Bytes) : Prop := EventWhole (buffer.drop 17)

/-! ## What each field reads -/

theorem append_eq_iff {left right : Bytes} (size : left.length = right.length) (front back : Bytes) :
    left ++ front = right ++ back ↔ left = right ∧ front = back := by
  constructor
  · intro same
    exact List.append_inj same size
  · rintro ⟨rfl, rfl⟩
    rfl

theorem eq_append_iff {written part : Bytes} (size : written.length = part.length) (rest : Bytes) :
    written = part ++ rest ↔ written = part ∧ rest.length = 0 := by
  have parts := append_eq_iff size [] rest
  rwa [List.append_nil, eq_comm (a := []), ← List.length_eq_zero_iff] at parts

theorem str_read {input rest : Bytes} {text : String} (read : readStr input = .ok (text, rest)) :
    input = encodeText text ++ rest ∧ textSize input = (encodeText text).length :=
  prefixed_text_read read

theorem resource_read {input rest : Bytes} {resource : Resource}
    (read : decodeResource input = .ok (resource, rest)) :
    input = encodeResource resource ++ rest ∧
      resourceSize input = (encodeResource resource).length := by
  obtain ⟨tag, body, first, read⟩ := bind_ok read
  have tagged : input = tag :: body := recovers_u8 input _ _ first
  unfold decodeResourceBody at read
  split_ifs at read with file net device service
  · obtain ⟨path, last, text, read⟩ := bind_ok read
    obtain ⟨rfl, rfl⟩ := pure_ok read
    obtain ⟨whole, size⟩ := str_read text
    have exact : lossyPath (utf8 path) = path := from_utf8_lossy_utf8 path
    rw [tagged, file, resourceSize, field_u8, if_neg (by decide), if_neg (by decide),
      List.drop_succ_cons, List.drop_zero, size, encodeResource, exact, whole]
    exact ⟨rfl, by rw [List.length_append, List.length_singleton]⟩
  · obtain ⟨host, middle, text, read⟩ := bind_ok read
    obtain ⟨port, last, number, read⟩ := bind_ok read
    obtain ⟨rfl, rfl⟩ := pure_ok read
    obtain ⟨whole, size⟩ := str_read text
    have ported : middle = encodeU16 port ++ last := recovers_u16 middle _ _ number
    rw [tagged, net, resourceSize, field_u8, if_pos (by decide), List.drop_succ_cons, List.drop_zero, size,
      encodeResource, whole, ported]
    refine ⟨by simp only [List.append_assoc, List.cons_append, List.nil_append], ?_⟩
    simp only [List.length_append, List.length_singleton, encodeU16, encode_be_length]
    omega
  · obtain ⟨name, last, text, read⟩ := bind_ok read
    obtain ⟨rfl, rfl⟩ := pure_ok read
    obtain ⟨whole, size⟩ := str_read text
    rw [tagged, device, resourceSize, field_u8, if_neg (by decide), if_neg (by decide),
      List.drop_succ_cons, List.drop_zero, size, encodeResource, whole]
    exact ⟨rfl, by rw [List.length_append, List.length_singleton]⟩
  · obtain ⟨name, middle, text, read⟩ := bind_ok read
    obtain ⟨action, last, other, read⟩ := bind_ok read
    obtain ⟨rfl, rfl⟩ := pure_ok read
    obtain ⟨whole, size⟩ := str_read text
    obtain ⟨acted, actionSize⟩ := str_read other
    have behind : input.drop (1 + textSize (input.drop 1)) = middle := by
      rw [tagged, List.drop_succ_cons, List.drop_zero, size, Nat.add_comm, List.drop_succ_cons,
        whole, List.drop_left]
    rw [resourceSize, behind, actionSize, tagged, service, field_u8, if_neg (by decide),
      if_pos (by decide),
      List.drop_succ_cons, List.drop_zero, size, encodeResource, whole, acted]
    refine ⟨by simp only [List.append_assoc, List.cons_append, List.nil_append], ?_⟩
    simp only [List.length_append, List.length_singleton]
    omega
  · cases read

theorem rights_of_word (word : UInt32) : (Rights.fromBits word).bits.toNat = word.toNat % 8 := by
  rw [Rights.fromBits, Rights.bits, UInt32.toNat_ofNat', BitVec.toNat_ofNat]
  omega

/-- The mask keeps a rights word exactly when it has no unknown bit. -/
theorem rights_known_iff (word : UInt32) (rest : Bytes) :
    encodeU32 (Rights.fromBits word).bits = encodeU32 word ↔ RightsKnown (encodeU32 word ++ rest) := by
  have masked := rights_of_word word
  rw [RightsKnown, field_u32]
  constructor
  · intro same
    have words := field_u32 (Rights.fromBits word).bits []
    rw [same, field_u32] at words
    omega
  · intro known
    have same : (Rights.fromBits word).bits = word := UInt32.toNat_inj.mp (by omega)
    rw [same]

/-- The one-byte flag and, unless it is zero, the value. -/
def encodeOption {α : Type} (encode : α → Bytes) : Option α → Bytes
  | some value => 1 :: encode value
  | none => [0]

theorem option_read {α : Type} {item : Reader Error α} {encode : α → Bytes} {width : Nat}
    {input rest : Bytes} {value : Option α} (recovers : Recovers item encode)
    (sizes : ∀ value, (encode value).length = width)
    (read : (takeU8 endOfRecord >>= fun present => if present = 0 then pure none
      else item >>= fun value => pure (some value)) input = .ok (value, rest)) :
    ∃ bytes, input = bytes ++ rest ∧ bytes.length = optionSize width input ∧
      (encodeOption encode value).length = bytes.length ∧
      (encodeOption encode value = bytes ↔ OptionKnown input) := by
  obtain ⟨present, middle, first, read⟩ := bind_ok read
  have flagged : input = present :: middle := recovers_u8 input _ _ first
  split_ifs at read with absent
  · obtain ⟨rfl, rfl⟩ := pure_ok read
    rw [flagged, absent, optionSize, OptionKnown, field_u8]
    exact ⟨[0], rfl, rfl, rfl, fun _ => by decide, fun _ => rfl⟩
  · obtain ⟨held, last, second, read⟩ := bind_ok read
    obtain ⟨rfl, rfl⟩ := pure_ok read
    have whole : middle = encode held ++ last := recovers middle _ _ second
    have nonzero : present.toNat ≠ 0 := fun zero => absent (UInt8.toNat_inj.mp zero)
    rw [flagged, optionSize, OptionKnown, field_u8, if_neg nonzero, whole]
    refine ⟨present :: encode held, rfl, ?_, rfl, ?_⟩
    · rw [List.length_cons, sizes, Nat.add_comm]
    · rw [encodeOption, List.cons.injEq, and_iff_left rfl, eq_comm, ← UInt8.toNat_inj]
      change present.toNat = 1 ↔ _
      omega

theorem expires_read {input rest : Bytes} {value : Option UInt64}
    (read : readOptU64 input = .ok (value, rest)) :
    ∃ bytes, input = bytes ++ rest ∧ bytes.length = optionSize 8 input ∧
      (encodeOptU64 value).length = bytes.length ∧
      (encodeOptU64 value = bytes ↔ OptionKnown input) := by
  have same : encodeOptU64 value = encodeOption encodeU64 value := by cases value <;> rfl
  rw [same]
  exact option_read recovers_u64 (fun value => encode_be_length 8 _) read

theorem uses_read {input rest : Bytes} {value : Option UInt32}
    (read : readOptU32 input = .ok (value, rest)) :
    ∃ bytes, input = bytes ++ rest ∧ bytes.length = optionSize 4 input ∧
      (encodeOptU32 value).length = bytes.length ∧
      (encodeOptU32 value = bytes ↔ OptionKnown input) := by
  have same : encodeOptU32 value = encodeOption encodeU32 value := by cases value <;> rfl
  rw [same]
  exact option_read recovers_u32 (fun value => encode_be_length 4 _) read

/-- Principal, resource and rights, as three of the events have them. -/
theorem subject_read {event subject atResource atRights rest : Bytes} {principal : String}
    {resource : Resource} {rights : Rights} (there : subjectOf event = subject)
    (named : readStr subject = .ok (principal, atResource))
    (resourced : decodeResource atResource = .ok (resource, atRights))
    (granted : readRights atRights = .ok (rights, rest)) :
    ∃ word, rights = Rights.fromBits word ∧ fromRightsOf event = encodeU32 word ++ rest ∧
      subject = encodeText principal ++ (encodeResource resource ++ (encodeU32 word ++ rest)) := by
  obtain ⟨word, last, first, read⟩ := bind_ok granted
  obtain ⟨rfl, rfl⟩ := pure_ok read
  have worded : atRights = encodeU32 word ++ last := recovers_u32 atRights _ _ first
  obtain ⟨whole, size⟩ := str_read named
  obtain ⟨described, resourceSize⟩ := resource_read resourced
  refine ⟨word, rfl, ?_, by rw [whole, described, worded]⟩
  have behind : subject.drop (textSize subject) = atResource := by
    rw [size, whole, List.drop_left]
  rw [fromRightsOf, there, behind, resourceSize, described, List.drop_left, worded]

/-! ## Events -/

theorem encode_u32_length (value : UInt32) : (encodeU32 value).length = 4 := encode_be_length 4 _

theorem grant_read {body rest : Bytes} {event : Event}
    (read : decodeEventBody 1 body = .ok (event, rest)) :
    encodeEvent event = 1 :: body ↔ EventWhole (1 :: body) := by
  obtain ⟨grant, atPrincipal, first, read⟩ := bind_ok read
  obtain ⟨principal, atResource, named, read⟩ := bind_ok read
  obtain ⟨resource, atRights, resourced, read⟩ := bind_ok read
  obtain ⟨rights, atExpires, granted, read⟩ := bind_ok read
  obtain ⟨expiresUnix, atUses, timed, read⟩ := bind_ok read
  obtain ⟨maxUses, last, counted, read⟩ := bind_ok read
  obtain ⟨rfl, rfl⟩ := pure_ok read
  have whole : body = grant.bytes ++ atPrincipal := recovers_fixed 16 body _ _ first
  have there : subjectOf (1 :: body) = atPrincipal := by
    rw [subjectOf, field_u8, if_neg (by decide), whole]
    exact List.drop_left' (by rw [grant.size])
  obtain ⟨word, rfl, fields, subject⟩ := subject_read there named resourced granted
  obtain ⟨expires, expiresWhole, expiresSize, expiresLength, expiresKnown⟩ := expires_read timed
  obtain ⟨uses, usesWhole, usesSize, usesLength, usesKnown⟩ := uses_read counted
  have atFour : (encodeU32 word ++ atExpires).drop 4 = atExpires :=
    List.drop_left' (encode_u32_length word)
  have place : usesAt (encodeU32 word ++ atExpires) = 4 + expires.length := by
    rw [usesAt, atFour, expiresSize]
  have atSecond : (encodeU32 word ++ atExpires).drop (4 + expires.length) = atUses := by
    rw [← List.drop_drop, atFour, expiresWhole, List.drop_left]
  have size : grantSize (encodeU32 word ++ atExpires) = 4 + expires.length + uses.length := by
    rw [grantSize, place, atSecond, usesSize]
  have front : encodeEvent (.grant grant principal resource (Rights.fromBits word) expiresUnix
      maxUses) = 1 :: body ↔ encodeU32 (Rights.fromBits word).bits ++ (encodeOptU64 expiresUnix ++
        encodeOptU32 maxUses) = encodeU32 word ++ (expires ++ (uses ++ last)) := by
    rw [encodeEvent, whole, subject, expiresWhole, usesWhole, List.singleton_append,
      List.cons.injEq, and_iff_right rfl, List.append_cancel_left_eq, List.append_cancel_left_eq,
      List.append_cancel_left_eq]
  have total : (encodeU32 word ++ atExpires).length ≤ 4 + expires.length + uses.length ↔
      last.length = 0 := by
    rw [expiresWhole, usesWhole, List.length_append, List.length_append, List.length_append,
      encode_u32_length]
    omega
  rw [front, append_eq_iff (by rw [encode_u32_length, encode_u32_length]),
    append_eq_iff expiresLength, eq_append_iff usesLength, rights_known_iff word atExpires,
    expiresKnown, usesKnown, EventWhole, fields, field_u8, if_pos (by decide), place, atFour,
    atSecond, size, total]

theorem use_read {body rest : Bytes} {event : Event}
    (read : decodeEventBody 2 body = .ok (event, rest)) :
    encodeEvent event = 2 :: body ↔ EventWhole (2 :: body) := by
  obtain ⟨grant, atPrincipal, first, read⟩ := bind_ok read
  obtain ⟨principal, atResource, named, read⟩ := bind_ok read
  obtain ⟨resource, atRights, resourced, read⟩ := bind_ok read
  obtain ⟨rights, last, granted, read⟩ := bind_ok read
  obtain ⟨rfl, rfl⟩ := pure_ok read
  have whole : body = grant.bytes ++ atPrincipal := recovers_fixed 16 body _ _ first
  have there : subjectOf (2 :: body) = atPrincipal := by
    rw [subjectOf, field_u8, if_neg (by decide), whole]
    exact List.drop_left' (by rw [grant.size])
  obtain ⟨word, rfl, fields, subject⟩ := subject_read there named resourced granted
  have front : encodeEvent (.use grant principal resource (Rights.fromBits word)) = 2 :: body ↔
      encodeU32 (Rights.fromBits word).bits = encodeU32 word ++ last := by
    rw [encodeEvent, whole, subject, List.singleton_append, List.cons.injEq, and_iff_right rfl,
      List.append_cancel_left_eq, List.append_cancel_left_eq, List.append_cancel_left_eq]
  have total : (encodeU32 word ++ last).length ≤ 4 ↔ last.length = 0 := by
    rw [List.length_append, encode_u32_length]
    omega
  rw [front, eq_append_iff (by rw [encode_u32_length, encode_u32_length]),
    rights_known_iff word last, EventWhole, fields, field_u8, if_neg (by decide),
    if_pos (by decide), total]

theorem deny_read {body rest : Bytes} {event : Event}
    (read : decodeEventBody 3 body = .ok (event, rest)) :
    encodeEvent event = 3 :: body ↔ EventWhole (3 :: body) := by
  obtain ⟨principal, atResource, named, read⟩ := bind_ok read
  obtain ⟨resource, atRights, resourced, read⟩ := bind_ok read
  obtain ⟨rights, atReason, granted, read⟩ := bind_ok read
  obtain ⟨reason, last, explained, read⟩ := bind_ok read
  obtain ⟨rfl, rfl⟩ := pure_ok read
  have there : subjectOf (3 :: body) = body := by
    rw [subjectOf, field_u8, if_pos (by decide), List.drop_succ_cons, List.drop_zero]
  obtain ⟨word, rfl, fields, subject⟩ := subject_read there named resourced granted
  obtain ⟨reasonWhole, reasonSize⟩ := str_read explained
  have front : encodeEvent (.deny principal resource (Rights.fromBits word) reason) = 3 :: body ↔
      encodeU32 (Rights.fromBits word).bits ++ encodeText reason =
        encodeU32 word ++ (encodeText reason ++ last) := by
    rw [encodeEvent, subject, reasonWhole, List.singleton_append, List.cons.injEq,
      and_iff_right rfl, List.append_cancel_left_eq, List.append_cancel_left_eq]
  have atFour : (encodeU32 word ++ atReason).drop 4 = atReason :=
    List.drop_left' (encode_u32_length word)
  have total : (encodeU32 word ++ atReason).length ≤ 4 + (encodeText reason).length ↔
      last.length = 0 := by
    rw [reasonWhole, List.length_append, List.length_append, encode_u32_length]
    omega
  rw [front, append_eq_iff (by rw [encode_u32_length, encode_u32_length]), eq_append_iff rfl,
    and_iff_right rfl, rights_known_iff word atReason, EventWhole, fields, field_u8,
    if_neg (by decide), if_neg (by decide), if_pos (by decide), atFour, reasonSize, total]

theorem revoke_read {body rest : Bytes} {event : Event}
    (read : decodeEventBody 4 body = .ok (event, rest)) :
    encodeEvent event = 4 :: body ↔ EventWhole (4 :: body) := by
  obtain ⟨grant, last, first, read⟩ := bind_ok read
  obtain ⟨rfl, rfl⟩ := pure_ok read
  have whole : body = grant.bytes ++ last := recovers_fixed 16 body _ _ first
  have total : (4 :: body).length ≤ 17 ↔ last.length = 0 := by
    rw [whole, List.length_cons, List.length_append, grant.size]
    omega
  rw [EventWhole, field_u8, if_neg (by decide), if_neg (by decide), if_neg (by decide), total,
    encodeEvent, whole, List.singleton_append, List.cons.injEq, and_iff_right rfl,
    eq_append_iff rfl, and_iff_right rfl]

theorem event_read {tag : UInt8} {body rest : Bytes} {event : Event}
    (read : decodeEventBody tag body = .ok (event, rest)) :
    encodeEvent event = tag :: body ↔ EventWhole (tag :: body) := by
  by_cases grant : tag = 1
  · rw [grant] at read ⊢
    exact grant_read read
  by_cases use : tag = 2
  · rw [use] at read ⊢
    exact use_read read
  by_cases deny : tag = 3
  · rw [deny] at read ⊢
    exact deny_read read
  by_cases revoke : tag = 4
  · rw [revoke] at read ⊢
    exact revoke_read read
  · rw [decodeEventBody, if_neg grant, if_neg use, if_neg deny, if_neg revoke] at read
    cases read

theorem decode_payload_canonical_iff (buffer : Bytes) (seq timeUnix : UInt64) (event : Event)
    (accepted : decodePayload buffer = .ok (seq, timeUnix, event)) :
    encodePayload seq timeUnix event = buffer ↔ PayloadWhole buffer := by
  unfold decodePayload at accepted
  cases outcome : readPayload buffer with
  | error error =>
      rw [outcome] at accepted
      cases accepted
  | ok pair =>
      rw [outcome] at accepted
      obtain ⟨version, atSeq, first, read⟩ := bind_ok outcome
      split_ifs at read with other
      · cases read
      have versioned : buffer = [version] ++ atSeq := recovers_u8 buffer _ _ first
      obtain ⟨number, atTime, second, read⟩ := bind_ok read
      obtain ⟨time, atEvent, third, read⟩ := bind_ok read
      obtain ⟨found, last, fourth, read⟩ := bind_ok read
      have values : (number, time, found) = (seq, timeUnix, event) :=
        (pure_ok read).1.trans (Except.ok.inj accepted)
      cases values
      have numbered : atSeq = encodeU64 seq ++ atTime := recovers_u64 atSeq _ _ second
      have timed : atTime = encodeU64 timeUnix ++ atEvent := recovers_u64 atTime _ _ third
      obtain ⟨tag, body, fifth, read⟩ := bind_ok fourth
      have tagged : atEvent = tag :: body := recovers_u8 atEvent _ _ fifth
      have behind : buffer.drop 17 = tag :: body := by
        rw [versioned, numbered, timed, ← List.append_assoc, ← List.append_assoc, tagged]
        exact List.drop_left' rfl
      rw [PayloadWhole, behind, ← event_read read, versioned, numbered, timed, tagged,
        not_not.mp other, encodePayload, List.append_cancel_left_eq, List.append_cancel_left_eq,
        List.append_cancel_left_eq]

/-- The revocation of the zero grant, first of its log. -/
def sampleRevocation : Bytes := encodePayload 0 0 (.revoke ⟨List.replicate 16 0, rfl⟩)

theorem decode_payload_canonical_iff_sample :
    encodePayload 0 0 (.revoke ⟨List.replicate 16 0, rfl⟩) = sampleRevocation ↔
      PayloadWhole sampleRevocation :=
  decode_payload_canonical_iff sampleRevocation 0 0 (.revoke ⟨List.replicate 16 0, rfl⟩) rfl

theorem revocation_with_byte_behind :
    ¬∀ (buffer : Bytes) (seq timeUnix : UInt64) (event : Event),
      decodePayload buffer = .ok (seq, timeUnix, event) →
        encodePayload seq timeUnix event = buffer := by
  intro canonical
  have same := canonical (sampleRevocation ++ [99]) 0 0 (.revoke ⟨List.replicate 16 0, rfl⟩) rfl
  exact absurd (congrArg List.length same) (by decide)

end HorizonOs.Weave
