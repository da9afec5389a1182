import HorizonOs.Lib.Text

/-!
# Readers that recover their bytes

The converse of `Decodes`: whatever a reader accepts, the value it reads is written
as the bytes it has read. Fields are located in a buffer by their offsets.
-/

namespace HorizonOs.Lib.Canonical

open HorizonOs.Lib.ByteCodec HorizonOs.Lib.Text

set_option autoImplicit false

variable {ε : Type} {α β : Type}

/-- What `reader` accepts is the encoding of the value it reads, then what it leaves. -/
def Recovers (reader : Reader ε α) (encode : α → Bytes) : Prop :=
  ∀ input value rest, reader input = .ok (value, rest) → input = encode value ++ rest

theorem bind_ok {reader : Reader ε α} {k : α → Reader ε β} {input rest : Bytes} {result : β}
    (read : (reader >>= k) input = .ok (result, rest)) :
    ∃ value middle, reader input = .ok (value, middle) ∧ k value middle = .ok (result, rest) := by
  change (reader input).bind (fun pair => k pair.1 pair.2) = .ok (result, rest) at read
  cases outcome : reader input with
  | error error =>
      rw [outcome] at read
      cases read
  | ok pair =>
      rw [outcome] at read
      exact ⟨pair.1, pair.2, rfl, read⟩

theorem pure_ok {value result : α} {input rest : Bytes}
    (read : (pure value : Reader ε α) input = .ok (result, rest)) : value = result ∧ input = rest := by
  cases read
  exact ⟨rfl, rfl⟩

theorem lift_ok {outcome : Except ε α} {input rest : Bytes} {value : α}
    (read : (StateT.lift outcome : Reader ε α) input = .ok (value, rest)) :
    outcome = .ok value ∧ input = rest := by
  cases outcome with
  | error error => cases read
  | ok found =>
      cases read
      exact ⟨rfl, rfl⟩

theorem take_ok {short : ε} {count : Nat} {input bytes rest : Bytes}
    (read : take short count input = .ok (bytes, rest)) :
    bytes.length = count ∧ input = bytes ++ rest := by
  have size := yields_take short count input bytes rest read
  unfold take at read
  split at read
  · cases read
  · cases read
    exact ⟨size, (List.take_append_drop count input).symm⟩

theorem encode_decode_be (bytes : Bytes) : encodeBE bytes.length (decodeBE bytes) = bytes := by
  apply decode_be_injective _ _ (encode_be_length _ _)
  rw [decode_encode_be, Nat.mod_eq_of_lt (decode_be_lt bytes)]

/-- An integer of the width it is read at is written with the bytes it was read from. -/
theorem encode_be_of_size {bytes : Bytes} {width : Nat} (size : bytes.length = width) :
    encodeBE width (decodeBE bytes) = bytes := by
  rw [← size]
  exact encode_decode_be bytes

theorem decode_be_below {bytes : Bytes} {width : Nat} (size : bytes.length = width) :
    decodeBE bytes < 256 ^ width :=
  size ▸ decode_be_lt bytes

section Fields

variable {short : ε}

theorem recovers_u8 : Recovers (takeU8 short) fun value => [value] := by
  intro input value rest read
  obtain ⟨bytes, middle, taken, done⟩ := bind_ok read
  obtain ⟨size, whole⟩ := take_ok taken
  obtain ⟨rfl, rfl⟩ := pure_ok done
  rw [whole, List.length_eq_one_iff.mp size |>.choose_spec]
  simp [decodeBE]

theorem recovers_u16 : Recovers (takeU16 short) encodeU16 := by
  intro input value rest read
  obtain ⟨bytes, middle, taken, done⟩ := bind_ok read
  obtain ⟨size, whole⟩ := take_ok taken
  obtain ⟨rfl, rfl⟩ := pure_ok done
  have below : decodeBE bytes < 2 ^ 16 := decode_be_below size
  rw [encodeU16, UInt16.toNat_ofNat', Nat.mod_eq_of_lt below, encode_be_of_size size, whole]

theorem recovers_u32 : Recovers (takeU32 short) encodeU32 := by
  intro input value rest read
  obtain ⟨bytes, middle, taken, done⟩ := bind_ok read
  obtain ⟨size, whole⟩ := take_ok taken
  obtain ⟨rfl, rfl⟩ := pure_ok done
  have below : decodeBE bytes < 2 ^ 32 := decode_be_below size
  rw [encodeU32, UInt32.toNat_ofNat', Nat.mod_eq_of_lt below, encode_be_of_size size, whole]

theorem recovers_u64 : Recovers (takeU64 short) encodeU64 := by
  intro input value rest read
  obtain ⟨bytes, middle, taken, done⟩ := bind_ok read
  obtain ⟨size, whole⟩ := take_ok taken
  obtain ⟨rfl, rfl⟩ := pure_ok done
  have below : decodeBE bytes < 2 ^ 64 := decode_be_below size
  rw [encodeU64, UInt64.toNat_ofNat', Nat.mod_eq_of_lt below, encode_be_of_size size, whole]

theorem recovers_fixed (width : Nat) : Recovers (takeFixed short width) FixedBytes.bytes := by
  intro input value rest read
  obtain ⟨bytes, middle, taken, done⟩ := bind_ok read
  obtain ⟨size, whole⟩ := take_ok taken
  obtain ⟨rfl, rfl⟩ := pure_ok done
  rw [fixed_of_bytes width bytes size, whole]

theorem recovers_utf8 {notUtf8 : ε} (count : Nat) : Recovers (takeUtf8 short notUtf8 count) utf8 := by
  intro input value rest read
  obtain ⟨bytes, middle, taken, done⟩ := bind_ok read
  obtain ⟨size, whole⟩ := take_ok taken
  cases decoded : fromUtf8 bytes with
  | none =>
      simp only [decoded] at done
      cases done
  | some text =>
      simp only [decoded] at done
      obtain ⟨rfl, rfl⟩ := pure_ok done
      rw [utf8_of_from_utf8 decoded, whole]

end Fields

theorem Recovers.many {item : Reader ε α} {encode : α → Bytes} (each : Recovers item encode)
    (count : Nat) : Recovers (takeMany item count) fun values => (values.map encode).flatten := by
  induction count with
  | zero =>
      intro input values rest read
      obtain ⟨rfl, rfl⟩ := pure_ok read
      rfl
  | succ count ih =>
      intro input values rest read
      obtain ⟨value, middle, first, later⟩ := bind_ok read
      obtain ⟨others, last, tail, done⟩ := bind_ok later
      obtain ⟨rfl, rfl⟩ := pure_ok done
      rw [each input value middle first, ih middle others last tail]
      exact (List.append_assoc _ _ _).symm

theorem many_length {item : Reader ε α} {count : Nat} {input rest : Bytes} {values : List α}
    (read : takeMany item count input = .ok (values, rest)) : values.length = count :=
  (yields_many (yields_any item) count input values rest read).1

/-! ## Fields of a buffer -/

/-- The number in the `width` bytes at `place`. -/
def fieldAt (buffer : Bytes) (place width : Nat) : Nat := decodeBE ((buffer.drop place).take width)

theorem field_at_drop (buffer : Bytes) (skip place width : Nat) :
    fieldAt (buffer.drop skip) place width = fieldAt buffer (skip + place) width := by
  rw [fieldAt, fieldAt, List.drop_drop]

/-- The field behind a part of known length. -/
theorem field_behind (front field rest : Bytes) :
    fieldAt (front ++ (field ++ rest)) front.length field.length = decodeBE field := by
  rw [fieldAt, List.drop_left, List.take_left]

theorem field_front (field rest : Bytes) :
    fieldAt (field ++ rest) 0 field.length = decodeBE field :=
  field_behind [] field rest

theorem field_u32 (value : UInt32) (rest : Bytes) :
    fieldAt (encodeU32 value ++ rest) 0 4 = value.toNat := by
  have field := field_front (encodeU32 value) rest
  have below : value.toNat < 256 ^ 4 := value.toNat_lt
  rw [encodeU32, encode_be_length, decode_encode_be, Nat.mod_eq_of_lt below] at field
  exact field

theorem field_u16 (value : UInt16) (rest : Bytes) :
    fieldAt (encodeU16 value ++ rest) 0 2 = value.toNat := by
  have field := field_front (encodeU16 value) rest
  have below : value.toNat < 256 ^ 2 := value.toNat_lt
  rw [encodeU16, encode_be_length, decode_encode_be, Nat.mod_eq_of_lt below] at field
  exact field

theorem field_u8 (value : UInt8) (rest : Bytes) : fieldAt (value :: rest) 0 1 = value.toNat := by
  simp [fieldAt, decodeBE]

end HorizonOs.Lib.Canonical
