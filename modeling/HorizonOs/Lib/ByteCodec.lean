import Mathlib.Data.List.Basic
import Mathlib.Data.Fintype.Card
import Mathlib.Tactic.Ring
import Mathlib.Tactic.Linarith

/-!
# Byte strings, big-endian integers and a byte reader

A small codec library: fixed-width big-endian integers, byte arrays of a fixed
size, and a reader that consumes a buffer from the front. `Decodes` says that
a reader inverts an encoding whatever follows it, and its rules compose the
way encoders do.
-/

namespace HorizonOs.Lib.ByteCodec

set_option autoImplicit false

abbrev Bytes := List UInt8

instance : LawfulBEq Bytes := inferInstance

/-- A byte array of a fixed size, the `[u8; width]` of the source. -/
@[ext]
structure FixedBytes (width : Nat) where
  bytes : Bytes
  size : bytes.length = width
  deriving DecidableEq

attribute [simp] FixedBytes.size

/-- The first `width` bytes of a buffer, padded with zeros when it is shorter. -/
def FixedBytes.ofBytes (width : Nat) (bytes : Bytes) : FixedBytes width where
  bytes := bytes.take width ++ List.replicate (width - bytes.length) 0
  size := by
    simp only [List.length_append, List.length_take, List.length_replicate]
    omega

theorem fixed_of_bytes (width : Nat) (bytes : Bytes) (size : bytes.length = width) :
    FixedBytes.ofBytes width bytes = ⟨bytes, size⟩ := by
  apply FixedBytes.ext
  simp [FixedBytes.ofBytes, size, List.take_of_length_le]

/-! ## Big-endian integers -/

/-- The low `width` bytes of `value`, most significant first. -/
def encodeBE : Nat → Nat → Bytes
  | 0, _ => []
  | width + 1, value => UInt8.ofNat (value / 256 ^ width) :: encodeBE width value

def decodeBE : Bytes → Nat
  | [] => 0
  | byte :: rest => byte.toNat * 256 ^ rest.length + decodeBE rest

@[simp] theorem encode_be_length (width value : Nat) : (encodeBE width value).length = width := by
  induction width with
  | zero => rfl
  | succ width ih => simp [encodeBE, ih]

theorem decode_encode_be (width value : Nat) :
    decodeBE (encodeBE width value) = value % 256 ^ width := by
  induction width with
  | zero => simp [encodeBE, decodeBE, Nat.mod_one]
  | succ width ih =>
      have digit : (UInt8.ofNat (value / 256 ^ width)).toNat = value / 256 ^ width % 256 := by
        simp [UInt8.toNat_ofNat']
      rw [encodeBE, decodeBE, encode_be_length, ih, digit, pow_succ, Nat.mod_mul]
      ring

theorem decode_be_lt (bytes : Bytes) : decodeBE bytes < 256 ^ bytes.length := by
  induction bytes with
  | nil => simp [decodeBE]
  | cons byte rest ih =>
      have bound := byte.toNat_lt
      simp only [decodeBE, List.length_cons, pow_succ]
      nlinarith

theorem decode_be_injective : ∀ left right : Bytes, left.length = right.length →
    decodeBE left = decodeBE right → left = right
  | [], [], _, _ => rfl
  | first :: left, second :: right, size, same => by
      have sizes : left.length = right.length := Nat.succ.inj size
      have low := decode_be_lt left
      have high := decode_be_lt right
      rw [decodeBE, decodeBE, ← sizes] at same
      rw [← sizes] at high
      have digits : first.toNat = second.toNat := by
        have weight : 0 < 256 ^ left.length := by positivity
        have above := congrArg (· / 256 ^ left.length) same
        simp only [Nat.mul_comm _ (256 ^ left.length), Nat.mul_add_div weight,
          Nat.div_eq_of_lt low, Nat.div_eq_of_lt high, Nat.add_zero] at above
        exact above
      have tails : decodeBE left = decodeBE right := by
        rw [digits] at same
        exact Nat.add_left_cancel same
      rw [UInt8.toNat_inj.mp digits, decode_be_injective left right sizes tails]

/-- There are no more arrays of a size than numbers of that many bytes. -/
theorem fixed_bytes_few {width : Nat} (values : List (FixedBytes width))
    (distinct : values.Nodup) : values.length ≤ 256 ^ width := by
  let number : FixedBytes width → Fin (256 ^ width) := fun value =>
    ⟨decodeBE value.bytes, by have below := decode_be_lt value.bytes; rwa [value.size] at below⟩
  have injective : Function.Injective number := by
    intro left right same
    apply FixedBytes.ext
    apply decode_be_injective _ _ (left.size.trans right.size.symm)
    exact Fin.val_eq_of_eq same
  have numbers := (List.Nodup.map injective distinct).length_le_card
  rwa [List.length_map, Fintype.card_fin] at numbers

/-! ## The reader -/

/-- A cursor over the bytes still unread. -/
abbrev Reader (ε : Type) := StateT Bytes (Except ε)

variable {ε : Type} {α β : Type}

/-- Take `count` bytes; `short` is the caller's error for a buffer that ends first. -/
def take (short : ε) (count : Nat) : Reader ε Bytes := fun input =>
  if input.length < count then .error short else .ok (input.take count, input.drop count)

/-- Take everything that is left. -/
def takeRest : Reader ε Bytes := fun input => .ok (input, [])

def takeFixed (short : ε) (width : Nat) : Reader ε (FixedBytes width) := do
  let bytes ← take short width
  pure (FixedBytes.ofBytes width bytes)

def takeU8 (short : ε) : Reader ε UInt8 := do
  let bytes ← take short 1
  pure (UInt8.ofNat (decodeBE bytes))

def takeU16 (short : ε) : Reader ε UInt16 := do
  let bytes ← take short 2
  pure (UInt16.ofNat (decodeBE bytes))

def takeU32 (short : ε) : Reader ε UInt32 := do
  let bytes ← take short 4
  pure (UInt32.ofNat (decodeBE bytes))

def takeU64 (short : ε) : Reader ε UInt64 := do
  let bytes ← take short 8
  pure (UInt64.ofNat (decodeBE bytes))

/-- Run one reader `count` times. -/
def takeMany (item : Reader ε α) : Nat → Reader ε (List α)
  | 0 => pure []
  | count + 1 => do
      let value ← item
      let values ← takeMany item count
      pure (value :: values)

def encodeU8 (value : UInt8) : Bytes := [value]
def encodeU16 (value : UInt16) : Bytes := encodeBE 2 value.toNat
def encodeU32 (value : UInt32) : Bytes := encodeBE 4 value.toNat
def encodeU64 (value : UInt64) : Bytes := encodeBE 8 value.toNat

/-- `reader` reads `value` off the front of any buffer that starts with
`encoded`, and leaves the rest unread. -/
def Decodes (reader : Reader ε α) (encoded : Bytes) (value : α) : Prop :=
  ∀ suffix, reader (encoded ++ suffix) = .ok (value, suffix)

theorem Decodes.pure (value : α) : Decodes (Pure.pure value : Reader ε α) [] value :=
  fun _ => rfl

theorem Decodes.bind {reader : Reader ε α} {k : α → Reader ε β}
    {s t : Bytes} {value : α} {result : β}
    (decodesFirst : Decodes reader s value) (decodesSecond : Decodes (k value) t result) :
    Decodes (reader >>= k) (s ++ t) result := by
  intro suffix
  rw [List.append_assoc]
  change (reader (s ++ (t ++ suffix))).bind (fun pair => k pair.1 pair.2) = _
  rw [decodesFirst]
  exact decodesSecond suffix

/-- A reader fails where the part behind what it has read fails. -/
theorem Decodes.bind_error {reader : Reader ε α} {k : α → Reader ε β} {s t : Bytes}
    {value : α} {error : ε} (decodesFirst : Decodes reader s value)
    (fails : k value t = .error error) : (reader >>= k) (s ++ t) = .error error := by
  change (reader (s ++ t)).bind (fun pair => k pair.1 pair.2) = _
  rw [decodesFirst]
  exact fails

/-- A final `pure` adds nothing to the encoding. -/
theorem Decodes.map {reader : Reader ε α} {encoded : Bytes} {value : α} (f : α → β)
    (decodes : Decodes reader encoded value) :
    Decodes (reader >>= fun item => Pure.pure (f item)) encoded (f value) := by
  have composed := decodes.bind (k := fun item => Pure.pure (f item))
    (Decodes.pure (f value))
  rwa [List.append_nil] at composed

theorem decodes_take (short : ε) (bytes : Bytes) : Decodes (take short bytes.length) bytes bytes := by
  intro suffix
  simp [take]

theorem decodes_take_of_length (short : ε) (bytes : Bytes) (count : Nat)
    (size : bytes.length = count) : Decodes (take short count) bytes bytes := by
  subst size
  exact decodes_take short bytes

theorem decodes_fixed (short : ε) {width : Nat} (value : FixedBytes width) :
    Decodes (takeFixed short width) value.bytes value := by
  have taken := (decodes_take_of_length short value.bytes width value.size).map
    (FixedBytes.ofBytes width)
  rwa [fixed_of_bytes width value.bytes value.size] at taken

theorem decodes_u8 (short : ε) (value : UInt8) : Decodes (takeU8 short) [value] value := by
  have taken := (decodes_take_of_length short [value] 1 rfl).map
    (fun bytes => UInt8.ofNat (decodeBE bytes))
  have same : UInt8.ofNat (decodeBE [value]) = value := by simp [decodeBE]
  rwa [same] at taken

theorem decodes_u16 (short : ε) (value : UInt16) :
    Decodes (takeU16 short) (encodeU16 value) value := by
  have taken := (decodes_take_of_length short (encodeU16 value) 2 (encode_be_length _ _)).map
    (fun bytes => UInt16.ofNat (decodeBE bytes))
  have same : UInt16.ofNat (decodeBE (encodeU16 value)) = value := by
    rw [encodeU16, decode_encode_be, Nat.mod_eq_of_lt (by simpa using value.toNat_lt),
      UInt16.ofNat_toNat]
  rwa [same] at taken

theorem decodes_u32 (short : ε) (value : UInt32) :
    Decodes (takeU32 short) (encodeU32 value) value := by
  have taken := (decodes_take_of_length short (encodeU32 value) 4 (encode_be_length _ _)).map
    (fun bytes => UInt32.ofNat (decodeBE bytes))
  have same : UInt32.ofNat (decodeBE (encodeU32 value)) = value := by
    rw [encodeU32, decode_encode_be, Nat.mod_eq_of_lt (by simpa using value.toNat_lt),
      UInt32.ofNat_toNat]
  rwa [same] at taken

theorem decodes_u64 (short : ε) (value : UInt64) :
    Decodes (takeU64 short) (encodeU64 value) value := by
  have taken := (decodes_take_of_length short (encodeU64 value) 8 (encode_be_length _ _)).map
    (fun bytes => UInt64.ofNat (decodeBE bytes))
  have same : UInt64.ofNat (decodeBE (encodeU64 value)) = value := by
    rw [encodeU64, decode_encode_be, Nat.mod_eq_of_lt (by simpa using value.toNat_lt),
      UInt64.ofNat_toNat]
  rwa [same] at taken

theorem decodes_many (item : Reader ε α) (encode : α → Bytes) (values : List α)
    (roundtrip : ∀ value ∈ values, Decodes item (encode value) value) :
    Decodes (takeMany item values.length) (values.map encode).flatten values := by
  induction values with
  | nil => exact Decodes.pure []
  | cons value values ih =>
      have head := roundtrip value (by simp)
      have tail := ih (by intro other member; exact roundtrip other (by simp [member]))
      exact head.bind (tail.map (value :: ·))

/-! ## The values of a reader -/

/-- Whatever it is given to read, the reader reads no other values. -/
def Yields (property : α → Prop) (reader : Reader ε α) : Prop :=
  ∀ input value rest, reader input = .ok (value, rest) → property value

theorem Yields.pure {property : α → Prop} {value : α} (holds : property value) :
    Yields property (Pure.pure value : Reader ε α) := by
  intro input other rest read
  cases read
  exact holds

theorem Yields.throw {property : α → Prop} (error : ε) :
    Yields property (throw error : Reader ε α) := by
  intro input value rest read
  cases read

theorem Yields.bind {property : α → Prop} {after : β → Prop} {reader : Reader ε α}
    {k : α → Reader ε β} (first : Yields property reader)
    (second : ∀ value, property value → Yields after (k value)) : Yields after (reader >>= k) := by
  intro input value rest read
  change (reader input).bind (fun pair => k pair.1 pair.2) = .ok (value, rest) at read
  cases outcome : reader input with
  | error error =>
      rw [outcome] at read
      cases read
  | ok pair =>
      rw [outcome] at read
      exact second pair.1 (first input pair.1 pair.2 outcome) pair.2 value rest read

theorem yields_any (reader : Reader ε α) : Yields (fun _ => True) reader :=
  fun _ _ _ _ => trivial

theorem yields_take (short : ε) (count : Nat) :
    Yields (fun bytes => bytes.length = count) (take short count) := by
  intro input value rest read
  unfold take at read
  split at read
  · cases read
  · cases read
    rw [List.length_take]
    omega

theorem yields_many {property : α → Prop} {item : Reader ε α} (each : Yields property item)
    (count : Nat) :
    Yields (fun values => values.length = count ∧ ∀ value ∈ values, property value)
      (takeMany item count) := by
  induction count with
  | zero => exact Yields.pure ⟨rfl, fun _ member => absurd member List.not_mem_nil⟩
  | succ count ih =>
      refine each.bind fun value holds => ih.bind fun values read => Yields.pure ?_
      exact ⟨congrArg Nat.succ read.1, List.forall_mem_cons.mpr ⟨holds, read.2⟩⟩

/-! ## The errors of a reader -/

/-- Whatever it is given to read, the reader fails with no other errors. -/
def FailsWith (property : ε → Prop) (reader : Reader ε α) : Prop :=
  ∀ input error, reader input = .error error → property error

variable {property : ε → Prop}

theorem FailsWith.pure (value : α) : FailsWith property (Pure.pure value : Reader ε α) := by
  intro input error failed
  cases failed

theorem FailsWith.throw {error : ε} (holds : property error) :
    FailsWith property (throw error : Reader ε α) := by
  intro input other failed
  cases failed
  exact holds

theorem FailsWith.bind {reader : Reader ε α} {k : α → Reader ε β}
    (first : FailsWith property reader) (second : ∀ value, FailsWith property (k value)) :
    FailsWith property (reader >>= k) := by
  intro input error failed
  change (reader input).bind (fun pair => k pair.1 pair.2) = .error error at failed
  cases outcome : reader input with
  | error other =>
      rw [outcome] at failed
      cases failed
      exact first input _ outcome
  | ok pair =>
      rw [outcome] at failed
      exact second pair.1 pair.2 error failed

theorem fails_take {short : ε} (holds : property short) (count : Nat) :
    FailsWith property (take short count) := by
  intro input error failed
  unfold take at failed
  split at failed
  · cases failed
    exact holds
  · cases failed

theorem fails_many {item : Reader ε α} (each : FailsWith property item) (count : Nat) :
    FailsWith property (takeMany item count) := by
  induction count with
  | zero => exact FailsWith.pure []
  | succ count ih => exact each.bind fun value => ih.bind fun values => FailsWith.pure _

section Integers

variable {short : ε} (holds : property short)
include holds

theorem fails_fixed (width : Nat) : FailsWith property (takeFixed short width) :=
  (fails_take holds width).bind fun _ => FailsWith.pure _

theorem fails_u8 : FailsWith property (takeU8 short) :=
  (fails_take holds 1).bind fun _ => FailsWith.pure _

theorem fails_u16 : FailsWith property (takeU16 short) :=
  (fails_take holds 2).bind fun _ => FailsWith.pure _

theorem fails_u32 : FailsWith property (takeU32 short) :=
  (fails_take holds 4).bind fun _ => FailsWith.pure _

theorem fails_u64 : FailsWith property (takeU64 short) :=
  (fails_take holds 8).bind fun _ => FailsWith.pure _

end Integers

end HorizonOs.Lib.ByteCodec
