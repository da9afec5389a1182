import HorizonOs.Lib.Canonical
import HorizonOs.Lifestream.Object

/-!
# The bytes of an object

Every buffer the decoder accepts is the encoding of the object it reads, then bytes
that belong to none of its fields. Where the fields end is read off the counts and the
lengths in the buffer itself.
-/

namespace HorizonOs.Lifestream

open HorizonOs.Lib.ByteCodec HorizonOs.Lib.Text HorizonOs.Lib.Canonical

set_option autoImplicit false

/-! ## Sizes in the buffer -/

/-- A text with the length in front of it. -/
def textSize (input : Bytes) : Nat := 4 + fieldAt input 0 4

def entrySize (input : Bytes) : Nat := 2 + fieldAt input 0 2 + 1 + 4 + 32

def entriesSize : Nat → Bytes → Nat
  | 0, _ => 0
  | count + 1, input => entrySize input + entriesSize count (input.drop (entrySize input))

def generationSize (body : Bytes) : Nat :=
  let labelAt := 32 + 1 + 32 * fieldAt body 32 1 + 8
  let metaAt := labelAt + textSize (body.drop labelAt)
  metaAt + textSize (body.drop metaAt)

def bodySize (tag : UInt8) (body : Bytes) : Nat :=
  if tag = 2 then 4 + 32 * fieldAt body 0 4
  else if tag = 3 then 4 + entriesSize (fieldAt body 0 4) (body.drop 4)
  else if tag = 4 then generationSize body
  else body.length

/-- How many bytes the object takes, by its tag, its counts and its lengths. -/
def declaredSize : Bytes → Nat
  | [] => 0
  | tag :: body => 1 + bodySize tag body

/-! ## What each field reads -/

theorem prefixed_text_read {ε : Type} {short notUtf8 : ε} {input rest : Bytes} {text : String}
    (read : (takeU32 short >>= fun length => takeUtf8 short notUtf8 length.toNat) input =
      .ok (text, rest)) :
    input = encodeText text ++ rest ∧ textSize input = (encodeText text).length := by
  obtain ⟨length, middle, first, second⟩ := bind_ok read
  have size := yields_utf8 short notUtf8 length.toNat middle text rest second
  have whole : input = encodeU32 length ++ middle := recovers_u32 input length middle first
  have tail : middle = utf8 text ++ rest := recovers_utf8 _ middle text rest second
  have encoded : encodeText text = encodeU32 length ++ utf8 text := by
    rw [encodeText, size, UInt32.ofNat_toNat]
  rw [textSize, whole, field_u32, encoded, tail, List.append_assoc, List.length_append,
    encodeU32, encode_be_length, size]
  exact ⟨rfl, rfl⟩

theorem kind_of_tag {tag : UInt8} {kind : NodeKind} (known : NodeKind.fromTag tag = .ok kind) :
    kind.tag = tag := by
  unfold NodeKind.fromTag at known
  split_ifs at known with file tree symlink <;> cases known
  · exact file.symm
  · exact tree.symm
  · exact symlink.symm

theorem entry_read {input rest : Bytes} {entry : TreeEntry}
    (read : readEntry input = .ok (entry, rest)) :
    input = entry.encode ++ rest ∧ entrySize input = entry.encode.length := by
  obtain ⟨nameLength, atName, first, read⟩ := bind_ok read
  obtain ⟨name, atTag, second, read⟩ := bind_ok read
  obtain ⟨tag, atKind, third, read⟩ := bind_ok read
  obtain ⟨kind, atMode, fourth, read⟩ := bind_ok read
  obtain ⟨mode, atId, fifth, read⟩ := bind_ok read
  obtain ⟨id, last, sixth, read⟩ := bind_ok read
  obtain ⟨rfl, rfl⟩ := pure_ok read
  obtain ⟨known, rfl⟩ := lift_ok fourth
  have size := yields_utf8 _ _ _ atName name atTag second
  have whole : input = encodeU16 nameLength ++ atName := recovers_u16 input _ _ first
  have named : atName = utf8 name ++ atTag := recovers_utf8 _ atName _ _ second
  have tagged : atTag = [tag] ++ atKind := recovers_u8 atTag _ _ third
  have moded : atKind = encodeU32 mode ++ atId := recovers_u32 atKind _ _ fifth
  have identified : atId = id.bytes ++ last := recovers_fixed 32 atId _ _ sixth
  have encoded : TreeEntry.encode { name, kind, id, mode } = encodeU16 nameLength ++
      (utf8 name ++ ([tag] ++ (encodeU32 mode ++ id.bytes))) := by
    rw [TreeEntry.encode, size, UInt16.ofNat_toNat, kind_of_tag known]
  rw [entrySize, whole, field_u16, encoded, named, tagged, moded, identified]
  refine ⟨by simp only [List.append_assoc], ?_⟩
  simp only [List.length_append, encodeU16, encodeU32, encode_be_length, size, id.size,
    List.length_singleton]
  omega

theorem entries_read {count : Nat} {input rest : Bytes} {entries : List TreeEntry}
    (read : takeMany readEntry count input = .ok (entries, rest)) :
    input = (entries.map TreeEntry.encode).flatten ++ rest ∧
      entriesSize count input = (entries.map TreeEntry.encode).flatten.length := by
  induction count generalizing input entries with
  | zero =>
      obtain ⟨rfl, rfl⟩ := pure_ok read
      exact ⟨rfl, rfl⟩
  | succ count ih =>
      obtain ⟨entry, middle, first, read⟩ := bind_ok read
      obtain ⟨others, last, later, read⟩ := bind_ok read
      obtain ⟨rfl, rfl⟩ := pure_ok read
      obtain ⟨whole, size⟩ := entry_read first
      obtain ⟨tail, sizes⟩ := ih later
      have behind : input.drop (entrySize input) = middle := by
        rw [size, whole, List.drop_left]
      rw [entriesSize, behind, sizes, size, List.map_cons, List.flatten_cons, List.length_append,
        List.append_assoc, ← tail, ← whole]
      exact ⟨rfl, rfl⟩

theorem ids_read {count : Nat} {input rest : Bytes} {ids : List ObjectId}
    (read : takeMany (takeFixed endOfObject 32) count input = .ok (ids, rest)) :
    input = (ids.map FixedBytes.bytes).flatten ++ rest ∧
      (ids.map FixedBytes.bytes).flatten.length = 32 * count := by
  have size := many_length read
  refine ⟨(recovers_fixed 32).many count input ids rest read, ?_⟩
  have widths : (ids.map FixedBytes.bytes).map List.length = ids.map fun _ => 32 := by
    rw [List.map_map]
    exact List.map_congr_left fun id _ => id.size
  rw [List.length_flatten, widths, List.map_const', List.sum_replicate_nat, size,
    Nat.mul_comm]

theorem generation_read {input rest : Bytes} {g : Generation}
    (read : readGeneration input = .ok (g, rest)) :
    input = g.encode ++ rest ∧ generationSize input = g.encode.length := by
  obtain ⟨root, atCount, first, read⟩ := bind_ok read
  obtain ⟨count, atParents, second, read⟩ := bind_ok read
  obtain ⟨parents, atTime, third, read⟩ := bind_ok read
  obtain ⟨timeUnix, atLabel, fourth, read⟩ := bind_ok read
  obtain ⟨label, atMeta, fifth, read⟩ := bind_ok read
  obtain ⟨metaText, last, sixth, read⟩ := bind_ok read
  obtain ⟨rfl, rfl⟩ := pure_ok read
  have rooted : input = root.bytes ++ atCount := recovers_fixed 32 input _ _ first
  have counted : atCount = [count] ++ atParents := recovers_u8 atCount _ _ second
  obtain ⟨fathered, size⟩ := ids_read third
  have timed : atTime = encodeU64 timeUnix ++ atLabel := recovers_u64 atTime _ _ fourth
  obtain ⟨labelled, labelSize⟩ := prefixed_text_read fifth
  obtain ⟨described, metaSize⟩ := prefixed_text_read sixth
  have parentCount : fieldAt input 32 1 = count.toNat := by
    have field := field_behind root.bytes [count] atParents
    rw [root.size, List.length_singleton, ← counted, ← rooted] at field
    rw [field]
    simp [decodeBE]
  have labelAt : input.drop (32 + 1 + 32 * count.toNat + 8) = atLabel := by
    rw [rooted, counted, fathered, timed, ← List.append_assoc, ← List.append_assoc,
      ← List.append_assoc]
    apply List.drop_left'
    simp only [List.length_append, root.size, size, encodeU64, encode_be_length,
      List.length_singleton]
  have metaAt : input.drop (32 + 1 + 32 * count.toNat + 8 + (encodeText label).length) = atMeta := by
    rw [← List.drop_drop, labelAt, labelled, List.drop_left]
  have parentByte : UInt8.ofNat parents.length = count := by
    rw [many_length third, UInt8.ofNat_toNat]
  refine ⟨?_, ?_⟩
  · rw [rooted, counted, fathered, timed, labelled, described, Generation.encode, parentByte]
    simp only [List.append_assoc]
  · simp only [generationSize, parentCount, labelAt, labelSize, metaAt, metaSize, Generation.encode,
      List.length_append, root.size, size, encodeU64, encode_be_length, List.length_singleton]
    omega

theorem body_read {tag : UInt8} {body rest : Bytes} {object : Object}
    (read : readBody tag body = .ok (object, rest)) :
    tag :: body = object.encode ++ rest ∧ 1 + bodySize tag body = object.encode.length := by
  unfold readBody at read
  split_ifs at read with chunk file tree generation
  · obtain ⟨data, last, first, read⟩ := bind_ok read
    obtain ⟨rfl, rfl⟩ := pure_ok read
    cases first
    rw [chunk, Object.encode, bodySize, List.append_nil, List.length_cons, Nat.add_comm]
    exact ⟨rfl, rfl⟩
  · obtain ⟨count, middle, first, read⟩ := bind_ok read
    obtain ⟨chunks, last, second, read⟩ := bind_ok read
    obtain ⟨rfl, rfl⟩ := pure_ok read
    have counted : body = encodeU32 count ++ middle := recovers_u32 body _ _ first
    obtain ⟨listed, size⟩ := ids_read second
    rw [file, Object.encode, many_length second, UInt32.ofNat_toNat, bodySize, if_pos rfl, counted,
      field_u32, List.length_cons, List.length_append, size, encodeU32, encode_be_length, listed,
      List.cons_append, List.append_assoc]
    exact ⟨rfl, Nat.add_comm _ _⟩
  · obtain ⟨count, middle, first, read⟩ := bind_ok read
    obtain ⟨entries, last, second, read⟩ := bind_ok read
    obtain ⟨rfl, rfl⟩ := pure_ok read
    have counted : body = encodeU32 count ++ middle := recovers_u32 body _ _ first
    obtain ⟨listed, size⟩ := entries_read second
    have behind : body.drop 4 = middle := by
      rw [counted]
      exact List.drop_left' (encode_be_length _ _)
    rw [tree, Object.encode, many_length second, UInt32.ofNat_toNat, bodySize, if_neg (by decide),
      if_pos rfl, behind, counted, field_u32, size, List.length_cons, List.length_append,
      encodeU32, encode_be_length, listed, List.cons_append, List.append_assoc]
    exact ⟨rfl, Nat.add_comm _ _⟩
  · obtain ⟨g, last, first, read⟩ := bind_ok read
    obtain ⟨rfl, rfl⟩ := pure_ok read
    obtain ⟨whole, size⟩ := generation_read first
    rw [generation, Object.encode, bodySize, if_neg (by decide), if_neg (by decide), if_pos rfl,
      size, List.length_cons, List.cons_append, ← whole]
    exact ⟨rfl, Nat.add_comm _ _⟩
  · cases read

/-- An accepted buffer is its object's encoding, then what its fields leave. -/
theorem decoded_bytes {buffer : Bytes} {object : Object}
    (accepted : Object.decode buffer = .ok object) :
    ∃ rest, buffer = object.encode ++ rest ∧ declaredSize buffer = object.encode.length := by
  unfold Object.decode at accepted
  cases outcome : readObject buffer with
  | error error =>
      rw [outcome] at accepted
      cases accepted
  | ok pair =>
      rw [outcome] at accepted
      cases accepted
      obtain ⟨tag, body, first, read⟩ := bind_ok outcome
      have tagged : buffer = [tag] ++ body := recovers_u8 buffer _ _ first
      obtain ⟨whole, size⟩ := body_read read
      rw [tagged]
      exact ⟨pair.2, whole, size⟩

theorem encode_decoded_iff {buffer : Bytes} {object : Object}
    (accepted : Object.decode buffer = .ok object) :
    object.encode = buffer ↔ buffer.length ≤ declaredSize buffer := by
  obtain ⟨rest, whole, size⟩ := decoded_bytes accepted
  rw [size]
  constructor
  · intro same
    rw [same]
  · intro short
    rw [whole, List.length_append] at short
    have nothing : rest = [] := List.length_eq_zero_iff.mp (by omega)
    rw [whole, nothing, List.append_nil]

/-- A buffer is its object's encoding, and among the buffers of that object the only one of
its kind, exactly when it ends with its last field. -/
theorem decode_canonical_iff (buffer : Bytes) (object : Object)
    (accepted : Object.decode buffer = .ok object) :
    (object.encode = buffer ↔ buffer.length ≤ declaredSize buffer) ∧
      (buffer.length ≤ declaredSize buffer → ∀ other, Object.decode other = .ok object →
        (other = buffer ↔ other.length ≤ declaredSize other)) := by
  refine ⟨encode_decoded_iff accepted, ?_⟩
  intro whole other accepted'
  have same := (encode_decoded_iff accepted).mpr whole
  rw [← same, eq_comm]
  exact encode_decoded_iff accepted'

theorem decode_canonical_iff_sample :
    (Object.encode (.file []) = [2, 0, 0, 0, 0] ↔
      ([2, 0, 0, 0, 0] : Bytes).length ≤ declaredSize [2, 0, 0, 0, 0]) ∧
    (([2, 0, 0, 0, 0] : Bytes).length ≤ declaredSize [2, 0, 0, 0, 0] →
      ∀ other, Object.decode other = .ok (.file []) →
        (other = [2, 0, 0, 0, 0] ↔ other.length ≤ declaredSize other)) :=
  decode_canonical_iff [2, 0, 0, 0, 0] (.file []) rfl

theorem two_encodings_of_one_object :
    Object.decode [2, 0, 0, 0, 0] = Object.decode [2, 0, 0, 0, 0, 99] ∧
    ¬∀ (buffer : Bytes) (object : Object), Object.decode buffer = .ok object →
      object.encode = buffer := by
  refine ⟨rfl, ?_⟩
  intro canonical
  have same := canonical [2, 0, 0, 0, 0, 99] (.file []) rfl
  exact absurd same (by decide)

end HorizonOs.Lifestream
