import HorizonOs.Keybuild.GptSound
import Mathlib.Data.List.TakeWhile

/-!
# The partition table as init reads it

`parse_gpt` takes a header and the array it points at; the names come out of their
fields up to the first zero unit. Over the table the builder writes it lists every
partition with a type, its number and its name.
-/

namespace HorizonOs.Init

open HorizonOs.Lib.ByteCodec HorizonOs.Lib.Buffer HorizonOs.Lib.Text HorizonOs.Lib.Utf16
open HorizonOs.Keybuild.Gpt

set_option autoImplicit false

/-- A partition with its number, from 1, and its name. -/
structure GptPart where
  number : Nat
  name : String
  deriving DecidableEq

/-- The little-endian units of `chunks_exact(2)`. -/
def unitsOf : Bytes → List UInt16
  | low :: high :: rest => UInt16.ofNat (decodeLE [low, high]) :: unitsOf rest
  | _ => []

/-- A name up to its first zero unit. -/
def decodeUtf16le (bytes : Bytes) : String :=
  fromUtf16Lossy ((unitsOf bytes).takeWhile (· ≠ 0))

/-- The loop over the slots from the `i`-th on: an unused one counts but is not listed,
and one past the end of the array stops it. -/
def parseSlots (size : Nat) (entries : Bytes) : Nat → Nat → List GptPart
  | _, 0 => []
  | i, count + 1 =>
      if entries.length < i * size + 128 then []
      else
        let entry := slice entries (i * size) 128
        let rest := parseSlots size entries (i + 1) count
        if (slice entry 0 16).all (· = 0) then rest
        else ⟨(i + 1) % 2 ^ 32, decodeUtf16le (slice entry 56 72)⟩ :: rest

def parseGpt (header entries : Bytes) : Option (List GptPart) :=
  if header.length < 92 ∨ slice header 0 8 ≠ utf8 "EFI PART" then none
  else
    let num := decodeLE (slice header 80 4)
    let size := decodeLE (slice header 84 4)
    if size < 128 then none else some (parseSlots size entries 0 num)

/-- A disk's primary table: the header in sector 1 and the array it points at, where
both can be read and the array is no larger than a MiB. -/
def readDiskGpt (disk : Bytes) (sector : Nat) : Option (List GptPart) :=
  if disk.length < sector + 512 then none
  else
    let header := slice disk sector 512
    if slice header 0 8 ≠ utf8 "EFI PART" then none
    else
      let entryLba := decodeLE (slice header 72 8)
      let total := decodeLE (slice header 80 4) * decodeLE (slice header 84 4)
      if total = 0 ∨ 2 ^ 20 < total then none
      else if 2 ^ 64 ≤ entryLba * sector ∨ disk.length < entryLba * sector + total then none
      else parseGpt header (slice disk (entryLba * sector) total)

/-- The number of the first partition of a name. -/
def findLabel (parts : List GptPart) (label : String) : Option Nat :=
  (parts.find? (·.name = label)).map GptPart.number

/-! ## Names -/

/-- A name as a reader sees it: at most 36 units, up to the first zero. -/
def shownLabel (name : String) : String :=
  fromUtf16Lossy (((encodeUtf16 name).take 36).takeWhile (· ≠ 0))

/-- A name that its field holds whole. -/
def LabelFits (name : String) : Prop :=
  (encodeUtf16 name).length ≤ 36 ∧ Char.ofNat 0 ∉ name.toList

instance (name : String) : Decidable (LabelFits name) := inferInstanceAs (Decidable (_ ∧ _))

theorem units_of_zeros (count : Nat) : ∀ unit ∈ unitsOf (List.replicate count 0), unit = 0 := by
  induction count using Nat.twoStepInduction with
  | zero => exact fun _ member => absurd member List.not_mem_nil
  | one => exact fun _ member => absurd member List.not_mem_nil
  | more count ih _ =>
      intro unit member
      rcases List.mem_cons.mp member with rfl | later
      · rfl
      · exact ih unit later

theorem units_of_encoded (units : List UInt16) (rest : Bytes) :
    unitsOf (units.flatMap (fun u => encodeLE 2 u.toNat) ++ rest) = units ++ unitsOf rest := by
  induction units with
  | nil => rfl
  | cons unit units ih =>
      have read : UInt16.ofNat (decodeLE (encodeLE 2 unit.toNat)) = unit := by
        rw [decode_encode_le_of_lt 2 _ unit.toNat_lt, UInt16.ofNat_toNat]
      have step : ∀ more : Bytes, unitsOf (encodeLE 2 unit.toNat ++ more) =
          UInt16.ofNat (decodeLE (encodeLE 2 unit.toNat)) :: unitsOf more := fun _ => rfl
      rw [List.flatMap_cons, List.append_assoc, step, ih, read, List.cons_append]

/-- A name is shown as it is exactly where its field holds it whole. -/
theorem shown_label_iff (name : String) : shownLabel name = name ↔ LabelFits name := by
  constructor
  · intro same
    have few := encode_lossy_length_le (((encodeUtf16 name).take 36).takeWhile (· ≠ 0))
    have units : ((lossyChars (((encodeUtf16 name).take 36).takeWhile (· ≠ 0))).flatMap
        encodeChar) = encodeUtf16 name := by
      rw [encodeUtf16, ← String.toList_ofList (l := lossyChars _)]
      exact congrArg (fun text : String => text.toList.flatMap encodeChar) same
    rw [units] at few
    have cut := (List.takeWhile_sublist (l := (encodeUtf16 name).take 36)
      (p := (· ≠ (0 : UInt16)))).length_le
    rw [List.length_take] at cut
    have short : (encodeUtf16 name).length ≤ 36 := by omega
    refine ⟨short, fun zero => ?_⟩
    rw [List.take_of_length_le short] at few
    have whole := (List.takeWhile_prefix (l := encodeUtf16 name)
      (· ≠ (0 : UInt16))).eq_of_length_le few
    have kept := List.mem_takeWhile_imp (whole ▸ (zero_unit_iff name).mpr zero)
    simp at kept
  · rintro ⟨short, solid⟩
    have kept : (encodeUtf16 name).takeWhile (· ≠ (0 : UInt16)) = encodeUtf16 name := by
      rw [List.takeWhile_eq_self_iff]
      intro unit member
      rw [decide_eq_true_eq]
      rintro rfl
      exact solid ((zero_unit_iff name).mp member)
    rw [shownLabel, List.take_of_length_le short, kept, lossy_encode_utf16]

/-! ## The builder's table -/

theorem name_bytes_length (units : List UInt16) :
    (units.flatMap fun u => encodeLE 2 u.toNat).length = 2 * units.length := by
  induction units with
  | nil => rfl
  | cons unit units ih =>
      rw [List.flatMap_cons, List.length_append, length_encode_le, ih, List.length_cons]
      omega

theorem units_before_zeros (units : List UInt16) (count : Nat) :
    (units ++ unitsOf (List.replicate count 0)).takeWhile (· ≠ 0) = units.takeWhile (· ≠ 0) := by
  induction units with
  | nil =>
      rw [List.nil_append, List.takeWhile_nil, List.takeWhile_eq_nil_iff]
      intro some
      simp [units_of_zeros count _ (List.getElem_mem some)]
  | cons unit units ih =>
      rw [List.cons_append, List.takeWhile_cons, List.takeWhile_cons, ih]

/-- The name field of an entry: the units that fit, and zeros. -/
theorem entry_name (p : PartSpec) (pl : Placed) :
    decodeUtf16le (slice (entryBytes p pl) 56 72) = shownLabel p.name := by
  have length : (List.replicate entrySize (0 : UInt8)).length = 128 := List.length_replicate
  have short : 2 * ((encodeUtf16 p.name).take 36).length ≤ 72 := by
    rw [List.length_take]
    omega
  have bytes := name_bytes_length ((encodeUtf16 p.name).take 36)
  have behind : ∀ start count, 56 ≤ start → start + count ≤ 128 →
      slice (List.replicate entrySize (0 : UInt8)) start count = List.replicate count 0 :=
    fun start count _ inside => slice_replicate 0 entrySize start count inside
  have field : slice (entryBytes p pl) 56 72 =
      ((encodeUtf16 p.name).take 36).flatMap (fun u => encodeLE 2 u.toNat) ++
        List.replicate (72 - 2 * ((encodeUtf16 p.name).take 36).length) 0 := by
    have whole := slice_append (entryBytes p pl) 56 (2 * ((encodeUtf16 p.name).take 36).length)
      (72 - 2 * ((encodeUtf16 p.name).take 36).length)
    rw [Nat.add_sub_cancel' short] at whole
    rw [← whole]
    unfold entryBytes
    generalize List.replicate entrySize (0 : UInt8) = e at *
    apply congrArg₂
    · exact slice_put_self _ _ _ _ bytes (by simp only [length_put, length]; omega)
    · rw [slice_put_apart _ _ _ _ _ (.inr (by rw [bytes]))]
      simp (disch := simp <;> omega) only [slice_put_apart]
      exact behind _ _ (by omega) (by omega)
  rw [field, decodeUtf16le, units_of_encoded, units_before_zeros]
  exact (shownLabel.eq_1 p.name).symm

/-- Slots as the builder fills them, and none after them, are listed by number and name. -/
theorem parse_slots_read (array : Bytes) : ∀ (count i : Nat) (slots : List (PartSpec × Placed)),
    slots.length ≤ count → (i + count) * 128 ≤ array.length → i + count < 2 ^ 32 →
    (∀ k (inside : k < slots.length),
      slice array ((i + k) * 128) 128 = entryBytes slots[k].1 slots[k].2) →
    (∀ k, slots.length ≤ k → k < count → slice array ((i + k) * 128) 128 = List.replicate 128 0) →
    (∀ slot ∈ slots, ∃ b ∈ slot.1.typeGuid.bytes, b ≠ 0) →
      parseSlots 128 array i count =
        (slots.zipIdx i).map fun slot => ⟨slot.2 + 1, shownLabel slot.1.1.name⟩
  | 0, i, slots, few, _, _, _, _, _ => by
      rw [List.length_eq_zero_iff.mp (Nat.le_zero.mp few)]
      rfl
  | count + 1, i, [], _, room, small, _, blank, _ => by
      have unused : (slice (slice array (i * 128) 128) 0 16).all (· = 0) = true := by
        have zeros := blank 0 (Nat.le_refl 0) (Nat.succ_pos count)
        rw [Nat.add_zero] at zeros
        rw [zeros]
        decide
      have later := parse_slots_read array count (i + 1) [] (Nat.zero_le _) (by omega) (by omega)
        (fun k inside => absurd inside (Nat.not_lt_zero k))
        (fun k _ inside => by
          have zeros := blank (k + 1) (Nat.zero_le _) (by omega)
          rwa [← Nat.add_assoc, Nat.add_right_comm] at zeros)
        (fun slot member => absurd member List.not_mem_nil)
      rw [parseSlots, if_neg (by omega)]
      simp only [unused, if_true, later]
      rfl
  | count + 1, i, slot :: slots, few, room, small, filled, blank, typed => by
      have own := filled 0 (Nat.succ_pos _)
      rw [Nat.add_zero] at own
      have type : slice (slice array (i * 128) 128) 0 16 = slot.1.typeGuid.bytes := by
        rw [own]
        exact (entry_read slot.1 slot.2).1
      have used : (slice (slice array (i * 128) 128) 0 16).all (· = 0) = false := by
        obtain ⟨b, member, some⟩ := typed slot List.mem_cons_self
        rw [type, List.all_eq_false]
        exact ⟨b, member, by simpa using some⟩
      have name : decodeUtf16le (slice (slice array (i * 128) 128) 56 72) =
          shownLabel slot.1.name := by
        rw [own]
        exact entry_name slot.1 slot.2
      have number : (i + 1) % 2 ^ 32 = i + 1 := Nat.mod_eq_of_lt (by omega)
      have later := parse_slots_read array count (i + 1) slots (Nat.le_of_succ_le_succ few)
        (by omega) (by omega)
        (fun k inside => by
          have next := filled (k + 1) (Nat.succ_lt_succ inside)
          rwa [← Nat.add_assoc, Nat.add_right_comm] at next)
        (fun k after inside => by
          have zeros := blank (k + 1) (Nat.succ_le_succ after) (by omega)
          rwa [← Nat.add_assoc, Nat.add_right_comm] at zeros)
        (fun other member => typed other (List.mem_cons_of_mem slot member))
      rw [parseSlots, if_neg (by omega)]
      simp only [used, name, number, later]
      rfl

/-- What comes after the entries is left alone. -/
theorem put_entries_after (array : Bytes) (i : Nat) (entries : List (PartSpec × Placed))
    (offset count : Nat) (after : (i + entries.length) * entrySize ≤ offset) :
    slice (putEntries array i entries) offset count = slice array offset count := by
  induction entries generalizing array i with
  | nil => rfl
  | cons entry entries ih =>
      rw [List.length_cons, Nat.add_mul, Nat.succ_mul] at after
      rw [putEntries, ih _ _ (by rw [Nat.add_mul, Nat.succ_mul]; omega)]
      apply slice_put_apart
      rw [length_entry_bytes]
      omega

/-- The table lists each partition by its number and the name that its field shows. -/
theorem parse_entry_array (specs : List PartSpec) (few : specs.length ≤ entryCount)
    (typed : ∀ p ∈ specs, ∃ b ∈ p.typeGuid.bytes, b ≠ 0) :
    parseSlots 128 (entryArray specs) 0 entryCount =
      specs.zipIdx.map fun p => ⟨p.2 + 1, shownLabel p.1.name⟩ := by
  have length := length_entry_array specs
  have count : (specs.zip (place alignSectors specs).1).length = specs.length := by
    rw [List.length_zip, place_length, Nat.min_self]
  have firsts : (specs.zip (place alignSectors specs).1).map Prod.fst = specs :=
    List.map_fst_zip (by rw [place_length])
  have slots := parse_slots_read (entryArray specs) entryCount 0
    (specs.zip (place alignSectors specs).1) (by rw [count]; exact few)
    (by rw [length, Nat.zero_add]; exact Nat.le_refl _) (by decide)
    (fun k inside => by
      rw [entryArray]
      apply put_entries_read _ 0 _ _ k inside
      rw [List.length_replicate, Nat.zero_add, count]
      exact Nat.mul_le_mul_right entrySize few)
    (fun k after inside => by
      rw [entryArray, put_entries_after]
      · apply slice_replicate
        have size : entryCount * entrySize = 16384 := rfl
        have limit : entryCount = 128 := rfl
        omega
      · exact Nat.mul_le_mul_right entrySize (Nat.add_le_add_left after 0))
    (fun slot member => typed slot.1 (List.of_mem_zip member).1)
  rw [slots]
  conv_rhs => rw [← firsts]
  rw [List.zipIdx_map, List.map_map]
  rfl

/-- A header a builder wrote says how many entries there are and how wide each is. -/
theorem header_sizes (a : HeaderArgs) :
    decodeLE (slice (header a) 80 4) = 128 ∧ decodeLE (slice (header a) 84 4) = 128 := by
  obtain ⟨_, _, _, _, _, _, _, _, count, width, _⟩ := header_fields_read a
  rw [header_read a 80 4 (by omega), header_read a 84 4 (by omega), count, width]
  exact ⟨decode_encode_le_of_lt 4 entryCount (by decide),
    decode_encode_le_of_lt 4 entrySize (by decide)⟩

theorem header_signature (a : HeaderArgs) : slice (header a) 0 8 = utf8 "EFI PART" := by
  rw [header_read a 0 8 (by omega), (header_fields_read a).1]

theorem parse_gpt_header (a : HeaderArgs) (entries : Bytes) :
    parseGpt (header a) entries = some (parseSlots 128 entries 0 entryCount) := by
  have long : ¬((header a).length < 92 ∨ slice (header a) 0 8 ≠ utf8 "EFI PART") := by
    rw [length_header, header_signature, sector]
    simp
  obtain ⟨count, width⟩ := header_sizes a
  rw [parseGpt, if_neg long]
  simp only [count, width]
  rw [if_neg (by omega)]
  rfl

/-- Every list of at most 128 partitions with types is read back in order, by number and by
the name each field shows. -/
theorem parse_gpt_build (diskGuid : Guid) (parts : List PartSpec)
    (few : parts.length ≤ entryCount) (typed : ∀ p ∈ parts, ∃ b ∈ p.typeGuid.bytes, b ≠ 0) :
    ∃ disk, build diskGuid parts = some disk ∧
      parseGpt disk.primary disk.primaryEntries =
        some (parts.zipIdx.map fun p => ⟨p.2 + 1, shownLabel p.1.name⟩) := by
  have framed := frame_framed diskGuid (place alignSectors parts).1 (place alignSectors parts).2
    (entryArray parts) (length_entry_array parts)
  refine ⟨_, build_eq diskGuid parts few, ?_⟩
  rw [framed.primary, framed.primaryEntries, parse_gpt_header, parse_entry_array parts few typed]

theorem gpt_reads_back (diskGuid : Guid) (parts : List PartSpec) (few : parts.length ≤ entryCount)
    (typed : ∀ p ∈ parts, ∃ b ∈ p.typeGuid.bytes, b ≠ 0) (named : ∀ p ∈ parts, LabelFits p.name) :
    ∃ disk, build diskGuid parts = some disk ∧
      parseGpt disk.primary disk.primaryEntries =
        some (parts.zipIdx.map fun p => ⟨p.2 + 1, p.1.name⟩) := by
  obtain ⟨disk, built, parsed⟩ := parse_gpt_build diskGuid parts few typed
  refine ⟨disk, built, ?_⟩
  rw [parsed]
  congr 1
  apply List.map_congr_left
  intro p member
  rw [(shown_label_iff p.1.name).mpr (named p.1 (List.fst_mem_of_mem_zipIdx member))]

theorem gpt_reads_back_sample :
    ∃ disk, build (FixedBytes.ofBytes 16 []) [⟨FixedBytes.ofBytes 16 [1], FixedBytes.ofBytes 16 [2],
        "HORIZON-ESP", 1⟩, ⟨FixedBytes.ofBytes 16 [3], FixedBytes.ofBytes 16 [4], "🔑", 1⟩] =
          some disk ∧
      parseGpt disk.primary disk.primaryEntries =
        some ([⟨1, "HORIZON-ESP"⟩, ⟨2, "🔑"⟩] : List GptPart) :=
  gpt_reads_back (FixedBytes.ofBytes 16 []) [⟨FixedBytes.ofBytes 16 [1], FixedBytes.ofBytes 16 [2],
      "HORIZON-ESP", 1⟩, ⟨FixedBytes.ofBytes 16 [3], FixedBytes.ofBytes 16 [4], "🔑", 1⟩]
    (by decide) (by decide) (by decide)

end HorizonOs.Init
