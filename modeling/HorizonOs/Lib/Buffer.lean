import HorizonOs.Lib.ByteCodec

/-!
# Buffers written in place

A buffer of fixed length, what is written at an offset of it and what is read from
one: a write is read back where it went and leaves everything beside it alone.
Little-endian integers are what such buffers mostly hold.
-/

namespace HorizonOs.Lib.Buffer

open HorizonOs.Lib.ByteCodec

set_option autoImplicit false

section Lists

variable {α : Type}

/-- Overwrite from an offset on; the buffer keeps its length. -/
def put (buffer : List α) (offset : Nat) (items : List α) : List α :=
  (buffer.take offset ++ items ++ buffer.drop (offset + items.length)).take buffer.length

def slice (buffer : List α) (offset count : Nat) : List α := (buffer.drop offset).take count

theorem get_put (buffer : List α) (offset : Nat) (items : List α) (i : Nat) :
    (put buffer offset items)[i]? =
      if offset ≤ i ∧ i < offset + items.length ∧ i < buffer.length then items[i - offset]?
      else buffer[i]? := by
  unfold put
  rw [List.getElem?_take, List.append_assoc, List.getElem?_append, List.getElem?_append,
    List.length_take, List.getElem?_take, List.getElem?_drop]
  by_cases inside : i < buffer.length
  · rw [if_pos inside]
    by_cases before : i < offset
    · rw [if_pos (by omega), if_pos before, if_neg (by omega)]
    · have start : min offset buffer.length = offset := by omega
      rw [start, if_neg before]
      by_cases written : i - offset < items.length
      · rw [if_pos written, if_pos (by omega)]
      · rw [if_neg written, if_neg (by omega)]
        congr 1
        omega
  · rw [if_neg inside, if_neg (by omega), List.getElem?_eq_none (by omega)]

@[simp] theorem length_put (buffer : List α) (offset : Nat) (items : List α) :
    (put buffer offset items).length = buffer.length := by
  unfold put
  simp only [List.length_take, List.length_append, List.length_drop]
  omega

theorem get_slice (buffer : List α) (offset count i : Nat) :
    (slice buffer offset count)[i]? = if i < count then buffer[offset + i]? else none := by
  rw [slice, List.getElem?_take, List.getElem?_drop]

theorem length_slice (buffer : List α) (offset count : Nat)
    (inside : offset + count ≤ buffer.length) : (slice buffer offset count).length = count := by
  rw [slice, List.length_take, List.length_drop]
  omega

/-- A write is read back. -/
theorem slice_put_self (buffer : List α) (offset count : Nat) (items : List α)
    (size : items.length = count) (inside : offset + count ≤ buffer.length) :
    slice (put buffer offset items) offset count = items := by
  apply List.ext_getElem?
  intro i
  rw [get_slice, get_put]
  by_cases within : i < count
  · rw [if_pos within, if_pos (by omega), Nat.add_sub_cancel_left]
  · rw [if_neg within, List.getElem?_eq_none (by omega)]

/-- A write is not seen beside it. -/
theorem slice_put_apart (buffer : List α) (offset : Nat) (items : List α) (other count : Nat)
    (apart : other + count ≤ offset ∨ offset + items.length ≤ other) :
    slice (put buffer offset items) other count = slice buffer other count := by
  apply List.ext_getElem?
  intro i
  rw [get_slice, get_slice]
  by_cases within : i < count
  · rw [if_pos within, if_pos within, get_put, if_neg (by omega)]
  · rw [if_neg within, if_neg within]

/-- What is read within a write is read from what was written. -/
theorem slice_put_within (buffer : List α) (offset : Nat) (items : List α) (start count : Nat)
    (within : start + count ≤ items.length) (inside : offset + items.length ≤ buffer.length) :
    slice (put buffer offset items) (offset + start) count = slice items start count := by
  apply List.ext_getElem?
  intro i
  rw [get_slice, get_slice]
  by_cases read : i < count
  · rw [if_pos read, if_pos read, get_put, if_pos (by omega)]
    congr 1
    omega
  · rw [if_neg read, if_neg read]

theorem slice_slice (buffer : List α) (offset count start length : Nat)
    (within : start + length ≤ count) :
    slice (slice buffer offset count) start length = slice buffer (offset + start) length := by
  apply List.ext_getElem?
  intro i
  rw [get_slice, get_slice, get_slice]
  by_cases read : i < length
  · rw [if_pos read, if_pos read, if_pos (by omega), Nat.add_assoc]
  · rw [if_neg read, if_neg read]

/-- Two slices that meet are one. -/
theorem slice_append (buffer : List α) (offset first second : Nat) :
    slice buffer offset first ++ slice buffer (offset + first) second =
      slice buffer offset (first + second) := by
  rw [slice, slice, slice, List.take_add, List.drop_drop]

/-- Slices one after the other. -/
theorem flat_map_slices (buffer : List α) (offset width count : Nat) :
    (List.range count).flatMap (fun i => slice buffer (offset + i * width) width) =
      slice buffer offset (count * width) := by
  induction count with
  | zero =>
      rw [Nat.zero_mul]
      exact (List.take_zero).symm
  | succ count ih =>
      rw [List.range_succ, List.flatMap_append, ih, List.flatMap_singleton, slice_append,
        Nat.succ_mul]

/-- A slice depends on nothing outside it. -/
theorem slice_congr (left right : List α) (offset count : Nat)
    (same : ∀ i, offset ≤ i → i < offset + count → left[i]? = right[i]?) :
    slice left offset count = slice right offset count := by
  apply List.ext_getElem?
  intro i
  rw [get_slice, get_slice]
  by_cases read : i < count
  · rw [if_pos read, if_pos read, same (offset + i) (by omega) (by omega)]
  · rw [if_neg read, if_neg read]

/-- Two writes that meet are one. -/
theorem put_put (buffer : List α) (offset : Nat) (first second : List α) :
    put (put buffer offset first) (offset + first.length) second =
      put buffer offset (first ++ second) := by
  apply List.ext_getElem?
  intro i
  rw [get_put, get_put, get_put, length_put, List.length_append]
  by_cases late : offset + first.length ≤ i ∧ i < offset + first.length + second.length ∧
      i < buffer.length
  · rw [if_pos late, if_pos (by omega), List.getElem?_append_right (by omega)]
    congr 1
    omega
  · rw [if_neg late]
    by_cases early : offset ≤ i ∧ i < offset + first.length ∧ i < buffer.length
    · rw [if_pos early, if_pos (by omega), List.getElem?_append_left (by omega)]
    · rw [if_neg early, if_neg (by omega)]

theorem slice_replicate (value : α) (size offset count : Nat) (inside : offset + count ≤ size) :
    slice (List.replicate size value) offset count = List.replicate count value := by
  rw [slice, List.drop_replicate, List.take_replicate]
  congr 1
  omega

/-- Writing back what stood there before undoes a write. -/
theorem put_back (buffer : List α) (offset : Nat) (items before : List α) (count : Nat)
    (size : items.length = before.length) (stood : slice buffer offset before.length = before)
    (within : count ≤ buffer.length) :
    put (slice (put buffer offset items) 0 count) offset before = slice buffer 0 count := by
  apply List.ext_getElem?
  intro i
  have length : (slice (put buffer offset items) 0 count).length = count :=
    length_slice _ 0 count (by rw [length_put]; omega)
  rw [get_put, get_slice, get_slice, get_put, length, Nat.zero_add]
  by_cases read : i < count
  · rw [if_pos read, if_pos read]
    by_cases restored : offset ≤ i ∧ i < offset + before.length
    · have entry := congrArg (fun items => items[i - offset]?) stood
      simp only [get_slice] at entry
      rw [if_pos (by omega), ← entry, if_pos (by omega)]
      congr 1
      omega
    · rw [if_neg (by omega), if_neg (by omega)]
  · rw [if_neg (by omega), if_neg read, if_neg read]

theorem slice_append_left (left right : List α) (offset count : Nat)
    (within : offset + count ≤ left.length) :
    slice (left ++ right) offset count = slice left offset count := by
  rw [slice, slice, List.drop_append_of_le_length (by omega),
    List.take_append_of_le_length (by rw [List.length_drop]; omega)]

theorem slice_append_right (left right : List α) (offset count : Nat) :
    slice (left ++ right) (left.length + offset) count = slice right offset count := by
  rw [slice, slice, List.drop_append, List.drop_eq_nil_of_le (by omega), List.nil_append]
  congr 2
  omega

/-- Items of one width are found at its multiples. -/
theorem slice_flat_map {β : Type} (items : List β) (encode : β → List α) (width : Nat)
    (size : ∀ item, (encode item).length = width) (i : Nat) (item : β)
    (found : items[i]? = some item) :
    slice (items.flatMap encode) (i * width) width = encode item := by
  induction items generalizing i with
  | nil => cases found
  | cons first items ih =>
      rw [List.flatMap_cons]
      cases i with
      | zero =>
          cases found
          rw [Nat.zero_mul, slice_append_left _ _ 0 width (by rw [size]; omega), slice,
            List.drop_zero, List.take_of_length_le (size item).le]
      | succ i =>
          have later := slice_append_right (encode first) (items.flatMap encode) (i * width) width
          rw [size] at later
          rw [Nat.succ_mul, Nat.add_comm, later]
          exact ih i found

theorem slice_whole (items : List α) (count : Nat) (size : items.length = count) :
    slice items 0 count = items := by
  rw [slice, List.drop_zero, List.take_of_length_le size.le]

end Lists

/-! ## Little-endian integers -/

/-- The low `width` bytes of `value`, least significant first. -/
def encodeLE : Nat → Nat → Bytes
  | 0, _ => []
  | width + 1, value => UInt8.ofNat value :: encodeLE width (value / 256)

def decodeLE (bytes : Bytes) : Nat := bytes.foldr (fun byte rest => byte.toNat + 256 * rest) 0

@[simp] theorem length_encode_le (width value : Nat) : (encodeLE width value).length = width := by
  induction width generalizing value with
  | zero => rfl
  | succ width ih => rw [encodeLE, List.length_cons, ih]

theorem decode_encode_le (width value : Nat) :
    decodeLE (encodeLE width value) = value % 256 ^ width := by
  induction width generalizing value with
  | zero => rw [pow_zero, Nat.mod_one]; rfl
  | succ width ih =>
      change (UInt8.ofNat value).toNat + 256 * decodeLE (encodeLE width (value / 256)) = _
      have wider : 256 ^ (width + 1) = 256 * 256 ^ width := pow_succ' 256 width
      rw [ih, UInt8.toNat_ofNat', wider, Nat.mod_mul]

theorem decode_encode_le_of_lt (width value : Nat) (fits : value < 256 ^ width) :
    decodeLE (encodeLE width value) = value := by
  rw [decode_encode_le, Nat.mod_eq_of_lt fits]

end HorizonOs.Lib.Buffer
