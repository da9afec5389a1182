import HorizonOs.Keybuild.FatReader
import Mathlib.Data.List.TakeWhile

/-!
# Directory entries read back

What a reader makes of the records a directory is written as: the short entry of a child
gives its field, first cluster, size and kind, the slots before it its long name, and an
8.3 field the canonical name it was made of.
-/

namespace HorizonOs.Keybuild.Fat

open HorizonOs.Lib.ByteCodec HorizonOs.Lib.Buffer HorizonOs.Lib.Utf16

set_option autoImplicit false

/-! ## Records -/

theorem length_entry (name : Bytes) (first size : Nat) (attr : UInt8) :
    (entry name first size attr).length = 32 := by
  simp only [entry, length_put, List.length_replicate]

/-- A short field as records hold it: eleven bytes, the first of them a character. -/
structure ShortField (short : Bytes) : Prop where
  size : short.length = 11
  occupied : field short 0 1 ≠ 0
  present : field short 0 1 ≠ 0xE5

section Entry

variable (short : Bytes) (first length : Nat) (attr : UInt8)

theorem entry_attr : field (entry short first length attr) 11 1 = attr.toNat := by
  simp (disch := simp) only [field, entry, slice_put_apart, slice_put_self]
  simp [decodeLE]

theorem entry_first_high :
    field (entry short first length attr) 20 2 = first / 2 ^ 16 % 2 ^ 16 := by
  simp (disch := simp) only [field, entry, slice_put_apart, slice_put_self]
  exact decode_encode_le 2 _

theorem entry_first_low : field (entry short first length attr) 26 2 = first % 2 ^ 16 := by
  simp (disch := simp) only [field, entry, slice_put_apart, slice_put_self]
  exact decode_encode_le 2 _

theorem entry_size : field (entry short first length attr) 28 4 = length % 2 ^ 32 := by
  simp (disch := simp) only [field, entry, slice_put_self]
  exact decode_encode_le 4 _

variable {short} (size : short.length = 11)

include size

theorem entry_field : slice (entry short first length attr) 0 11 = short := by
  simp (disch := simp [size]) only [entry, slice_put_apart, slice_put_self]

theorem entry_first_byte : field (entry short first length attr) 0 1 = field short 0 1 := by
  have within := slice_slice (entry short first length attr) 0 11 0 1 (by omega)
  rw [entry_field first length attr size] at within
  rw [field, field, within]

/-- A first cluster and a size that fit their fields are read back. -/
theorem dir_entry_of_entry (slots : List Slot) (firstFits : first < 2 ^ 32)
    (lengthFits : length < 2 ^ 32) :
    dirEntry slots (entry short first length attr) =
      { field := short
        name := (longName slots short).getD (shortName short)
        isDir := attr.toNat / 16 % 2 = 1
        first, size := length } := by
  have whole : first / 2 ^ 16 % 2 ^ 16 * 2 ^ 16 + first % 2 ^ 16 = first := by omega
  simp only [dirEntry, entry_field first length attr size, entry_attr, entry_first_high,
    entry_first_low, entry_size, whole, Nat.mod_eq_of_lt lengthFits]

end Entry

/-! ## Records of a directory -/

theorem records_append (left right : Bytes) (whole : left.length % 32 = 0) :
    records (left ++ right) = records left ++ records right := by
  have size : left.length / 32 * 32 = left.length := by omega
  have count : (left ++ right).length / 32 = left.length / 32 + right.length / 32 := by
    rw [List.length_append]
    omega
  rw [records, count, List.range_add, List.map_append, List.map_map, records, records]
  congr 1
  · apply List.map_congr_left
    intro i member
    have inside := List.mem_range.mp member
    exact slice_append_left left right (i * 32) 32 (by omega)
  · apply List.map_congr_left
    intro i _
    have after : (left.length / 32 + i) * 32 = left.length + i * 32 := by omega
    rw [Function.comp_apply, after, slice_append_right]

theorem records_one (record : Bytes) (size : record.length = 32) : records record = [record] := by
  rw [records, size]
  exact congrArg (fun bytes => [bytes]) (slice_whole record 32 size)

theorem records_flat_map {α : Type} (items : List α) (encode : α → Bytes)
    (size : ∀ item ∈ items, (encode item).length = 32) :
    records (items.flatMap encode) = items.map encode := by
  induction items with
  | nil => simp [records]
  | cons item items ih =>
      have head := size item List.mem_cons_self
      rw [List.flatMap_cons, records_append _ _ (by rw [head]), records_one _ head,
        ih fun other member => size other (List.mem_cons_of_mem item member)]
      rfl

/-- Zeros hold no entry. -/
theorem parse_zeros (slots : List Slot) (count : Nat) :
    parseEntries slots (records (List.replicate count 0)) = [] := by
  rw [records]
  cases more : (List.replicate count (0 : UInt8)).length / 32 with
  | zero => rfl
  | succ rest =>
      have room : 32 ≤ count := by
        rw [List.length_replicate] at more
        omega
      have first : field (slice (List.replicate count (0 : UInt8)) (0 * 32) 32) 0 1 = 0 := by
        rw [field, slice_replicate 0 count (0 * 32) 32 (by omega), slice_replicate 0 32 0 1 (by omega)]
        rfl
      rw [List.range_succ_eq_map, List.map_cons, parseEntries, if_pos first]

/-! ## Slots of long names -/

theorem length_encode_units (units : List UInt16) :
    (encodeUnits units).length = 2 * units.length := by
  induction units with
  | nil => rfl
  | cons unit units ih =>
      rw [encodeUnits, List.flatMap_cons, List.length_append, length_encode_le, List.length_cons]
      rw [encodeUnits] at ih
      omega

theorem decode_encode_units (units : List UInt16) : decodeUnits (encodeUnits units) = units := by
  induction units with
  | nil => rfl
  | cons unit units ih =>
      have low : decodeLE (encodeLE 2 unit.toNat) = unit.toNat :=
        decode_encode_le_of_lt 2 _ unit.toNat_lt
      change UInt16.ofNat (decodeLE (encodeLE 2 unit.toNat)) :: decodeUnits (encodeUnits units) = _
      rw [ih, low, UInt16.ofNat_toNat]

theorem encode_units_append (left right : List UInt16) :
    encodeUnits (left ++ right) = encodeUnits left ++ encodeUnits right :=
  List.flatMap_append

theorem length_slot (units : List UInt16) (nslots : Nat) (cksum : UInt8) (seq : Nat) :
    (lfnSlot units nslots cksum seq).length = 32 := by
  simp only [lfnSlot, length_put, List.length_replicate]

/-- The sequence byte of a slot, the last part of the name marked. -/
theorem sequence_byte : ∀ seq < 64, ∀ last : Bool,
    (UInt8.ofNat seq ||| if last then 0x40 else 0).toNat = seq + if last then 64 else 0 := by
  decide

/-- The fields of a slot, given the part of the name that it holds. -/
theorem slot_fields (units : List UInt16) (nslots : Nat) (cksum : UInt8) (seq : Nat)
    (whole : (slice units ((seq - 1) * 13) 13).length = 13) :
    field (lfnSlot units nslots cksum seq) 0 1 =
        (UInt8.ofNat seq ||| if seq = nslots then 0x40 else 0).toNat ∧
      field (lfnSlot units nslots cksum seq) 11 1 = 0x0F ∧
      field (lfnSlot units nslots cksum seq) 13 1 = cksum.toNat ∧
      decodeUnits (slice (lfnSlot units nslots cksum seq) 1 10 ++
        slice (lfnSlot units nslots cksum seq) 14 12 ++
        slice (lfnSlot units nslots cksum seq) 28 4) = slice units ((seq - 1) * 13) 13 := by
  unfold lfnSlot
  generalize slice units ((seq - 1) * 13) 13 = chars at whole
  have pieces : slice chars 0 5 ++ slice chars 5 6 ++ slice chars 11 2 = chars := by
    rw [slice_append chars 0 5 6, slice_append chars 0 11 2, slice_whole chars 13 whole]
  have first : (encodeUnits (slice chars 0 5)).length = 10 := by
    rw [length_encode_units, length_slice chars 0 5 (by omega)]
  have second : (encodeUnits (slice chars 5 6)).length = 12 := by
    rw [length_encode_units, length_slice chars 5 6 (by omega)]
  have third : (encodeUnits (slice chars 11 2)).length = 4 := by
    rw [length_encode_units, length_slice chars 11 2 (by omega)]
  refine ⟨?_, ?_, ?_, ?_⟩
  · simp (disch := simp [first, second, third]) only [field, slice_put_apart, slice_put_self]
    simp [decodeLE]
  · simp (disch := simp [first, second, third]) only [field, slice_put_apart, slice_put_self]
    simp [decodeLE, attrLongName]
  · simp (disch := simp [first, second, third]) only [field, slice_put_apart, slice_put_self]
    simp [decodeLE]
  · simp (disch := simp [first, second, third]) only [slice_put_apart, slice_put_self]
    rw [← encode_units_append, ← encode_units_append, decode_encode_units, pieces]

/-- What a reader makes of the `seq`-th slot of a name. -/
def readSlot (long : String) (nslots : Nat) (cksum : UInt8) (seq : Nat) : Slot where
  seq
  last := seq = nslots
  checksum := cksum.toNat
  units := slice (lfnUnits long) ((seq - 1) * 13) 13

theorem length_lfn_units (long : String) :
    (lfnUnits long).length = ((encodeUtf16 long).length / 13 + 1) * 13 := by
  rw [lfnUnits, List.length_append, List.length_cons, List.length_replicate]
  omega

theorem length_lfn_entries (long : String) (short : Bytes) :
    (lfnEntries long short).length = ((encodeUtf16 long).length / 13 + 1) * 32 := by
  simp [lfnEntries, List.length_flatMap, length_slot]

section Name

variable (long : String) (nslots : Nat) (cksum : UInt8) (seq : Nat)
  (count : nslots = (encodeUtf16 long).length / 13 + 1) (few : nslots < 64) (low : 1 ≤ seq)
  (high : seq ≤ nslots)

include count few low high

theorem slot_read :
    slotOf (lfnSlot (lfnUnits long) nslots cksum seq) = readSlot long nslots cksum seq ∧
      field (lfnSlot (lfnUnits long) nslots cksum seq) 0 1 ≠ 0 ∧
      field (lfnSlot (lfnUnits long) nslots cksum seq) 0 1 ≠ 0xE5 ∧
      field (lfnSlot (lfnUnits long) nslots cksum seq) 11 1 = 0x0F := by
  have whole : (slice (lfnUnits long) ((seq - 1) * 13) 13).length = 13 := by
    apply length_slice
    rw [length_lfn_units, ← count]
    omega
  obtain ⟨first, attr, check, units⟩ := slot_fields (lfnUnits long) nslots cksum seq whole
  have mark := sequence_byte seq (by omega) (decide (seq = nslots))
  simp only [decide_eq_true_eq] at mark
  rw [mark] at first
  refine ⟨?_, ?_, ?_, attr⟩
  · have number : (seq + if seq = nslots then 64 else 0) % 64 = seq := by split_ifs <;> omega
    have flag : (seq + if seq = nslots then 64 else 0) / 64 % 2 = 1 ↔ seq = nslots := by
      split_ifs <;> omega
    rw [slotOf, first, check, units, readSlot, number, decide_eq_decide.mpr flag]
  · rw [first]
    split_ifs <;> omega
  · rw [first]
    split_ifs <;> omega

end Name

/-- Slots gather, the last one first. -/
theorem parse_slots (slots : List Slot) (seqs : List Nat) (mk : Nat → Bytes) (read : Nat → Slot)
    (rest : List Bytes)
    (reads : ∀ seq ∈ seqs, slotOf (mk seq) = read seq ∧ field (mk seq) 0 1 ≠ 0 ∧
      field (mk seq) 0 1 ≠ 0xE5 ∧ field (mk seq) 11 1 = 0x0F) :
    parseEntries slots (seqs.map mk ++ rest) =
      parseEntries ((seqs.map read).reverse ++ slots) rest := by
  induction seqs generalizing slots with
  | nil => rfl
  | cons seq seqs ih =>
      obtain ⟨slot, occupied, present, attr⟩ := reads seq List.mem_cons_self
      have long : field (mk seq) 11 1 % 64 = 0x0F := by rw [attr]
      rw [List.map_cons, List.cons_append, parseEntries, if_neg occupied, if_neg present,
        if_pos long, slot, ih _ fun other member => reads other (List.mem_cons_of_mem seq member),
        List.map_cons, List.reverse_cons, List.append_assoc]
      rfl

/-! ## Long names -/

theorem encode_char_of_lt (c : Char) (plane : c.toNat < 0x10000) :
    encodeChar c = [UInt16.ofNat c.toNat] := by
  rw [encodeChar, if_pos plane]

/-- A usable long name has few units, none of them a terminator. -/
theorem long_name_units {long : String} (usable : isLongName long = true) :
    (encodeUtf16 long).length ≤ 255 ∧ ∀ unit ∈ encodeUtf16 long, unit ≠ 0 := by
  simp only [isLongName, Bool.and_eq_true, decide_eq_true_eq, List.all_eq_true] at usable
  obtain ⟨⟨⟨⟨⟨⟨_, few⟩, _⟩, _⟩, _⟩, _⟩, chars⟩ := usable
  refine ⟨few, fun unit member => ?_⟩
  obtain ⟨c, inside, spelled⟩ := List.mem_flatMap.mp member
  obtain ⟨⟨low, high⟩, _⟩ := chars c inside
  rw [encode_char_of_lt c (by omega), List.mem_singleton] at spelled
  have number : unit.toNat = c.toNat := by
    rw [spelled, UInt16.toNat_ofNat', Nat.mod_eq_of_lt (by omega)]
  intro zero
  rw [zero] at number
  have none : (0 : UInt16).toNat = 0 := rfl
  omega

/-- The slots of a long name, read back, are its name. -/
theorem long_name_read (long : String) (short : Bytes) (usable : isLongName long = true) :
    longName ((List.range ((encodeUtf16 long).length / 13 + 1)).map fun i =>
      readSlot long ((encodeUtf16 long).length / 13 + 1) (lfnChecksum short) (i + 1)) short =
        some long := by
  have units := (long_name_units usable).2
  have total := length_lfn_units long
  have decoded := decode_encode_utf16 long
  generalize many : (encodeUtf16 long).length / 13 + 1 = nslots at total ⊢
  have seqs : List.range' 1 nslots = (List.range nslots).map (· + 1) := by
    rw [List.range'_eq_map_range]
    exact List.map_congr_left fun i _ => Nat.add_comm 1 i
  have joined : (List.range nslots).flatMap (fun i => slice (lfnUnits long) (i * 13) 13) =
      lfnUnits long := by
    have slices := flat_map_slices (lfnUnits long) 0 13 nslots
    simp only [Nat.zero_add] at slices
    rw [slices, slice_whole _ _ total]
  have named : ((lfnUnits long).takeWhile (· ≠ 0)) = encodeUtf16 long := by
    rw [lfnUnits, List.takeWhile_append_of_pos (by simpa using units), List.takeWhile_cons_of_neg]
    · exact List.append_nil _
    · simp
  rw [longName, if_pos]
  · rw [List.flatMap_map]
    simp only [readSlot, Nat.add_sub_cancel]
    rw [joined, named, decoded]
  · refine ⟨?_, ?_, ?_, ?_⟩
    · rw [List.length_map, List.length_range, seqs, List.map_map]
      rfl
    · rw [List.length_map, List.length_range, seqs, List.map_map, List.map_map]
      rfl
    · intro none
      have length := congrArg List.length none
      rw [List.length_map, List.length_range, List.length_nil] at length
      omega
    · intro slot member
      obtain ⟨i, _, rfl⟩ := List.mem_map.mp member
      rfl

/-- The slots before an entry are gathered, and nothing else. -/
theorem parse_long_entries (long : String) (short : Bytes) (usable : isLongName long = true)
    (rest : List Bytes) :
    parseEntries [] (records (lfnEntries long short) ++ rest) =
      parseEntries ((List.range ((encodeUtf16 long).length / 13 + 1)).map fun i =>
        readSlot long ((encodeUtf16 long).length / 13 + 1) (lfnChecksum short) (i + 1)) rest := by
  have few := (long_name_units usable).1
  generalize many : (encodeUtf16 long).length / 13 + 1 = nslots
  have cut : records (lfnEntries long short) =
      (List.range nslots).reverse.map fun i =>
        lfnSlot (lfnUnits long) nslots (lfnChecksum short) (i + 1) := by
    rw [lfnEntries, many]
    exact records_flat_map _ _ fun i _ => length_slot _ _ _ _
  rw [cut, parse_slots [] _ _ (fun i => readSlot long nslots (lfnChecksum short) (i + 1))]
  · rw [List.append_nil, List.map_reverse, List.reverse_reverse]
  · intro i member
    have inside := List.mem_range.mp (List.mem_reverse.mp member)
    exact slot_read long nslots _ (i + 1) many.symm (by omega) (by omega) (by omega)

/-! ## Short names -/

theorem short_char_range {c : Char} (ok : shortChar c = true) :
    0x20 < c.toNat ∧ c.toNat < 0x80 ∧ c ≠ '.' := by
  have marks : c.isUpper = true ∨ c.isDigit = true ∨ c = '-' ∨ c = '_' ∨ c = '~' := by
    simpa [shortChar, or_assoc] using ok
  have other : ∀ n, n ≠ 46 → c.toNat = n → c ≠ '.' := by
    rintro n apart number rfl
    exact apart number.symm
  rcases marks with letter | digit | rfl | rfl | rfl
  · have bounds : 65 ≤ c.toNat ∧ c.toNat ≤ 90 := by
      change decide (c.val ≥ 65 ∧ c.val ≤ 90) = true at letter
      simpa [UInt32.le_iff_toNat_le] using letter
    exact ⟨by omega, by omega, other _ (by omega) rfl⟩
  · have bounds : 48 ≤ c.toNat ∧ c.toNat ≤ 57 := by
      simpa [Char.isDigit, UInt32.le_iff_toNat_le] using digit
    exact ⟨by omega, by omega, other _ (by omega) rfl⟩
  · decide
  · decide
  · decide

theorem length_name_field (base ext : Bytes) : (nameField base ext).length = 11 := by
  simp only [nameField, List.length_append, List.length_take, List.length_replicate]
  omega

/-- A field is short for its name, unless it begins with a mark of a free record. -/
theorem name_field_short (b : UInt8) (base ext : Bytes) (occupied : b ≠ 0) (present : b ≠ 0xE5) :
    ShortField (nameField (b :: base) ext) := by
  have first : field (nameField (b :: base) ext) 0 1 = b.toNat := by
    simp [field, slice, nameField, decodeLE]
  refine ⟨length_name_field _ _, ?_, ?_⟩
  · rw [first]
    exact fun zero => occupied (UInt8.toNat_inj.mp zero)
  · rw [first]
    exact fun deleted => present (UInt8.toNat_inj.mp deleted)

theorem name_field_base (base ext : Bytes) (short : base.length ≤ 8) :
    slice (nameField base ext) 0 8 = base ++ List.replicate (8 - base.length) 0x20 := by
  have size : (base.take 8 ++ List.replicate (8 - base.length) (0x20 : UInt8)).length = 8 := by
    simp only [List.length_append, List.length_take, List.length_replicate]
    omega
  rw [nameField, List.append_assoc, slice_append_left _ _ 0 8 (by omega), slice_whole _ 8 size,
    List.take_of_length_le short]

theorem name_field_ext (base ext : Bytes) (short : ext.length ≤ 3) :
    slice (nameField base ext) 8 3 = ext ++ List.replicate (3 - ext.length) 0x20 := by
  have size : (base.take 8 ++ List.replicate (8 - base.length) (0x20 : UInt8)).length = 8 := by
    simp only [List.length_append, List.length_take, List.length_replicate]
    omega
  have right := slice_append_right (base.take 8 ++ List.replicate (8 - base.length) (0x20 : UInt8))
    (ext.take 3 ++ List.replicate (3 - ext.length) 0x20) 0 3
  rw [size] at right
  rw [nameField, List.append_assoc, right, List.take_of_length_le short, slice_whole]
  rw [List.length_append, List.length_replicate]
  omega

theorem trim_field_padded (bytes : Bytes) (count : Nat) (solid : ∀ b ∈ bytes, b ≠ 0x20) :
    trimField (bytes ++ List.replicate count 0x20) = bytes := by
  rw [trimField, List.reverse_append, List.reverse_replicate, List.dropWhile_append_of_pos,
    List.dropWhile_eq_self_iff.mpr]
  · exact List.reverse_reverse bytes
  · intro more
    have member : bytes.reverse[0] ∈ bytes := List.mem_reverse.mp (List.getElem_mem more)
    simpa using solid _ member
  · intro b member
    rw [List.eq_of_mem_replicate member]
    rfl

theorem field_chars_padded (chars : List Char) (count : Nat) (ok : chars.all shortChar = true) :
    fieldChars (asciiBytes chars ++ List.replicate count 0x20) = chars := by
  have each : ∀ c ∈ chars, (UInt8.ofNat c.toNat).toNat = c.toNat := by
    intro c member
    have range := short_char_range (List.all_eq_true.mp ok c member)
    rw [UInt8.toNat_ofNat', Nat.mod_eq_of_lt (by omega)]
  rw [fieldChars, trim_field_padded, asciiBytes, List.map_map]
  · apply (List.map_congr_left fun c member => ?_).trans (List.map_id chars)
    rw [Function.comp_apply, each c member, Char.ofNat_toNat]
    rfl
  · intro b member
    obtain ⟨c, inside, rfl⟩ := List.mem_map.mp member
    have range := short_char_range (List.all_eq_true.mp ok c inside)
    intro space
    have number := congrArg UInt8.toNat space
    rw [each c inside] at number
    have blank : (0x20 : UInt8).toNat = 0x20 := rfl
    omega

/-- A canonical name is a base, and after a dot an extension if there is one. -/
theorem canon_parts {name : String} {canon : List Char} (made : canon83 name = some canon) :
    ∃ base ext, base ≠ [] ∧ base.length ≤ 8 ∧ ext.length ≤ 3 ∧ base.all shortChar = true ∧
      ext.all shortChar = true ∧ canon = if ext = [] then base else base ++ '.' :: ext := by
  rw [canon83] at made
  split at made
  case h_1 base ext parts =>
    split at made
    case isTrue => cases made
    case isFalse bad =>
      simp only [not_or, not_not, not_lt] at bad
      obtain ⟨nonempty, baseShort, extShort, baseOk, extOk⟩ := bad
      exact ⟨base, ext, nonempty, baseShort, extShort, baseOk, extOk, (Option.some.inj made).symm⟩

theorem to_field_parts (base ext : List Char) (baseOk : base.all shortChar = true) :
    toField (if ext = [] then base else base ++ '.' :: ext) =
      nameField (asciiBytes base) (asciiBytes ext) := by
  have undotted : ∀ c ∈ base, (decide (c ≠ '.')) = true := by
    intro c member
    exact decide_eq_true (short_char_range (List.all_eq_true.mp baseOk c member)).2.2
  rw [toField]
  split_ifs with none
  · rw [none, List.takeWhile_eq_self_iff.mpr undotted, List.dropWhile_eq_nil_iff.mpr undotted]
    rfl
  · rw [List.takeWhile_append_of_pos undotted, List.dropWhile_append_of_pos undotted,
      List.takeWhile_cons_of_neg (by simp), List.dropWhile_cons_of_neg (by simp), List.append_nil]
    rfl

/-- The field of a canonical name is read as that name. -/
theorem canon_read {name : String} {canon : List Char} (made : canon83 name = some canon) :
    ShortField (toField canon) ∧ shortName (toField canon) = String.ofList canon := by
  obtain ⟨base, ext, nonempty, baseShort, extShort, baseOk, extOk, rfl⟩ := canon_parts made
  have baseSize : (asciiBytes base).length ≤ 8 := by rwa [asciiBytes, List.length_map]
  have extSize : (asciiBytes ext).length ≤ 3 := by rwa [asciiBytes, List.length_map]
  rw [to_field_parts base ext baseOk]
  constructor
  · cases base with
    | nil => exact absurd rfl nonempty
    | cons c base =>
        have range := short_char_range (List.all_eq_true.mp baseOk c List.mem_cons_self)
        have number : (UInt8.ofNat c.toNat).toNat = c.toNat := by
          rw [UInt8.toNat_ofNat', Nat.mod_eq_of_lt (by omega)]
        have apart : ∀ b : UInt8, b.toNat ≤ 0x20 ∨ 0x80 ≤ b.toNat → UInt8.ofNat c.toNat ≠ b := by
          rintro b far rfl
          omega
        exact name_field_short _ _ _ (apart 0 (by decide)) (apart 0xE5 (by decide))
  · rw [shortName, name_field_base _ _ baseSize, name_field_ext _ _ extSize,
      field_chars_padded base _ baseOk, field_chars_padded ext _ extOk]

theorem mem_clean {part : List Char} {count : Nat} {b : UInt8} (member : b ∈ clean part count) :
    b ≠ 0 ∧ b ≠ 0xE5 := by
  obtain ⟨c, _, rfl⟩ := List.mem_map.mp (List.mem_of_mem_take member)
  split_ifs with ok
  · have range := short_char_range ok
    have number : (UInt8.ofNat c.toNat).toNat = c.toNat := by
      rw [UInt8.toNat_ofNat', Nat.mod_eq_of_lt (by omega)]
    constructor
    · intro zero
      rw [zero] at number
      have none : (0 : UInt8).toNat = 0 := rfl
      omega
    · intro deleted
      rw [deleted] at number
      have mark : (0xE5 : UInt8).toNat = 0xE5 := rfl
      omega
  · decide

theorem alias_short (long : String) (i : Nat) : ShortField (aliasField long i) := by
  rw [aliasField]
  obtain ⟨base, ext⟩ := rsplitDot (upper long)
  simp only [asciiBytes, List.map_cons]
  generalize (Nat.toDigits 10 i).map (fun c => UInt8.ofNat c.toNat) = digits
  cases cleaned : clean base (8 - (UInt8.ofNat '~'.toNat :: digits).length) with
  | nil => exact name_field_short _ _ _ (by decide) (by decide)
  | cons b rest =>
      obtain ⟨occupied, present⟩ := mem_clean (cleaned ▸ List.mem_cons_self)
      exact name_field_short b _ _ occupied present

theorem alias_from_short {long : String} {taken : List Bytes} {fuel i : Nat} {short : Bytes}
    (found : aliasFrom long taken fuel i = some short) : ShortField short := by
  induction fuel generalizing i with
  | zero => cases found
  | succ fuel ih =>
      rw [aliasFrom] at found
      split_ifs at found with used
      · exact ih found
      · cases found
        exact alias_short long i

/-- What a plan gives a name: its 8.3 field, or an alias beside the whole name. -/
def Planned (name : String) (plan : Bytes × Option String) : Prop :=
  (fits83 name = some plan.1 ∧ plan.2 = none) ∨
    (fits83 name = none ∧ plan.2 = some name ∧ ShortField plan.1)

theorem plan_fields_planned {taken : List Bytes} {names : List String}
    {plan : List (Bytes × Option String)} (made : planFields taken names = some plan) :
    List.Forall₂ Planned names plan := by
  induction names generalizing taken plan with
  | nil =>
      cases made
      exact .nil
  | cons name names ih =>
      rw [planFields] at made
      cases fits : fits83 name with
      | some short =>
          rw [fits] at made
          obtain ⟨rest, more, rfl⟩ := Option.map_eq_some_iff.mp made
          exact .cons (.inl ⟨fits, rfl⟩) (ih more)
      | none =>
          rw [fits] at made
          simp only [Option.bind_eq_bind, Option.bind_eq_some_iff] at made
          obtain ⟨short, free, rest, more, same⟩ := made
          rw [← Option.some.inj same]
          exact .cons (.inr ⟨fits, rfl, alias_from_short free⟩) (ih more)

/-- The record of a file or directory is read as its entry, with the slots before it. -/
theorem parse_entry {short : Bytes} (whole : ShortField short) (slots : List Slot)
    (first length : Nat) (attr : UInt8) (kind : attr = attrArchive ∨ attr = attrDirectory)
    (firstFits : first < 2 ^ 32) (lengthFits : length < 2 ^ 32) (rest : List Bytes) :
    parseEntries slots (entry short first length attr :: rest) =
      { field := short, name := (longName slots short).getD (shortName short)
        isDir := attr = attrDirectory, first, size := length } :: parseEntries [] rest := by
  have zeroth := entry_first_byte first length attr whole.size
  have bits : attr.toNat % 64 ≠ 0x0F ∧ attr.toNat / 8 % 2 ≠ 1 ∧
      (attr.toNat / 16 % 2 = 1 ↔ attr = attrDirectory) := by
    rcases kind with rfl | rfl <;> decide
  rw [parseEntries, zeroth, if_neg whole.occupied, if_neg whole.present, entry_attr,
    if_neg bits.1, if_neg bits.2.1,
    dir_entry_of_entry first length attr whole.size slots firstFits lengthFits]
  simp only [bits.2.2]

/-- A child's records are read as its entry, under the name a reader is to see. -/
theorem parse_child {name : String} {plan : Bytes × Option String} (planned : Planned name plan)
    (valid : validateName name = true) (first length : Nat) (attr : UInt8)
    (kind : attr = attrArchive ∨ attr = attrDirectory) (firstFits : first < 2 ^ 32)
    (lengthFits : length < 2 ^ 32) (rest : List Bytes) :
    parseEntries [] (records (longEntries plan.2 plan.1 ++ entry plan.1 first length attr) ++ rest) =
      { field := plan.1, name := shownName name, isDir := attr = attrDirectory, first
        size := length } :: parseEntries [] rest := by
  obtain ⟨short, long⟩ := plan
  have one := records_one (entry short first length attr) (length_entry _ _ _ _)
  rcases planned with ⟨fits, none⟩ | ⟨misfits, named, whole⟩
  · simp only at none fits
    obtain ⟨canon, made, rfl⟩ := Option.map_eq_some_iff.mp fits
    obtain ⟨whole, spelled⟩ := canon_read made
    have unslotted : longName [] (toField canon) = Option.none := by
      rw [longName, if_neg]
      exact fun ⟨_, _, nonempty, _⟩ => nonempty rfl
    rw [none, longEntries, List.nil_append, one, List.singleton_append,
      parse_entry whole [] first length attr kind firstFits lengthFits, unslotted, shownName, made,
      spelled]
    rfl
  · simp only at named misfits whole
    have usable : isLongName name = true := by
      rw [validateName, misfits] at valid
      simpa using valid
    have plain : canon83 name = none := Option.map_eq_none_iff.mp misfits
    have slots : (lfnEntries name short).length % 32 = 0 := by
      rw [length_lfn_entries, Nat.mul_mod_left]
    rw [named, longEntries, records_append _ _ slots, one, List.append_assoc,
      parse_long_entries name short usable, List.singleton_append,
      parse_entry whole _ first length attr kind firstFits lengthFits,
      long_name_read name short usable, shownName, plain]
    rfl

end HorizonOs.Keybuild.Fat
