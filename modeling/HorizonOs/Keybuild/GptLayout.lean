import HorizonOs.Keybuild.Gpt

/-!
# The partition table is sound

Where the partitions lie follows from one step of the loop that places them; what a
header says is read back field by field from the writes that made it.
-/

namespace HorizonOs.Keybuild.Gpt

open HorizonOs.Lib.ByteCodec HorizonOs.Lib.Buffer HorizonOs.Lib.Text

set_option autoImplicit false

/-! ## Where the partitions lie -/

/-- A region for a partition: aligned, and larger than the image by less than 1 MiB. -/
structure Fits (p : PartSpec) (pl : Placed) : Prop where
  aligned : pl.firstLba % alignSectors = 0
  order : pl.firstLba ≤ pl.lastLba
  offset : pl.offset = pl.firstLba * sector
  region : pl.offset + pl.size = (pl.lastLba + 1) * sector
  holds : p.size ≤ pl.size
  slack : pl.size < p.size + alignSectors * sector

/-- Regions one right after the other, between two sectors. -/
def Contiguous : Nat → List Placed → Nat → Prop
  | start, [], stop => start = stop
  | start, pl :: placed, stop =>
      pl.firstLba = start ∧ pl.firstLba ≤ pl.lastLba ∧ Contiguous (pl.lastLba + 1) placed stop

theorem region_sectors (size : Nat) (nonempty : 0 < size) :
    regionSectors size % alignSectors = 0 ∧ 0 < regionSectors size ∧
      size ≤ regionSectors size * sector ∧
      regionSectors size * sector < size + alignSectors * sector := by
  simp only [regionSectors, alignUp, divCeil, sector, alignSectors]
  omega

theorem place_length (cursor : Nat) (parts : List PartSpec) :
    (place cursor parts).1.length = parts.length := by
  induction parts generalizing cursor with
  | nil => rfl
  | cons p parts ih => exact congrArg Nat.succ (ih _)

/-- The cursor ends as far on as the regions are large. -/
theorem place_stop (cursor : Nat) (parts : List PartSpec) (nonempty : ∀ p ∈ parts, 0 < p.size) :
    (place cursor parts).2 = cursor + (parts.map fun p => regionSectors p.size).sum := by
  induction parts generalizing cursor with
  | nil => rfl
  | cons p parts ih =>
      have room := (region_sectors p.size (nonempty p List.mem_cons_self)).2.1
      have rest := ih (cursor + regionSectors p.size - 1 + 1)
        fun q member => nonempty q (List.mem_cons_of_mem p member)
      rw [List.map_cons, List.sum_cons]
      change (place (cursor + regionSectors p.size - 1 + 1) parts).2 = _
      rw [rest]
      omega

theorem place_fits (cursor : Nat) (parts : List PartSpec) (nonempty : ∀ p ∈ parts, 0 < p.size)
    (aligned : cursor % alignSectors = 0) :
    List.Forall₂ Fits parts (place cursor parts).1 := by
  induction parts generalizing cursor with
  | nil => exact .nil
  | cons p parts ih =>
      obtain ⟨whole, room, holds, slack⟩ := region_sectors p.size (nonempty p List.mem_cons_self)
      have next : cursor + regionSectors p.size - 1 + 1 = cursor + regionSectors p.size := by omega
      refine .cons ⟨aligned, ?_, rfl, ?_, holds, slack⟩ (ih _ ?_ ?_)
      · change cursor ≤ cursor + regionSectors p.size - 1
        omega
      · change cursor * sector + regionSectors p.size * sector = _ * sector
        rw [next, Nat.add_mul]
      · exact fun q member => nonempty q (List.mem_cons_of_mem p member)
      · rw [next, Nat.add_mod, aligned, whole]
        rfl

theorem place_contiguous (cursor : Nat) (parts : List PartSpec)
    (nonempty : ∀ p ∈ parts, 0 < p.size) :
    Contiguous cursor (place cursor parts).1 (place cursor parts).2 := by
  induction parts generalizing cursor with
  | nil => exact rfl
  | cons p parts ih =>
      have room := (region_sectors p.size (nonempty p List.mem_cons_self)).2.1
      refine ⟨rfl, ?_, ih _ fun q member => nonempty q (List.mem_cons_of_mem p member)⟩
      change cursor ≤ cursor + regionSectors p.size - 1
      omega

theorem Contiguous.bounds {start stop : Nat} {placed : List Placed}
    (contiguous : Contiguous start placed stop) :
    start ≤ stop ∧ ∀ pl ∈ placed, start ≤ pl.firstLba ∧ pl.lastLba < stop := by
  induction placed generalizing start with
  | nil => exact ⟨Nat.le_of_eq contiguous, fun pl member => absurd member List.not_mem_nil⟩
  | cons first placed ih =>
      obtain ⟨starts, order, rest⟩ := contiguous
      obtain ⟨within, others⟩ := ih rest
      refine ⟨by omega, fun pl member => ?_⟩
      rcases List.mem_cons.mp member with rfl | later
      · omega
      · have bounds := others pl later
        omega

theorem Contiguous.pairwise {start stop : Nat} {placed : List Placed}
    (contiguous : Contiguous start placed stop) :
    placed.Pairwise fun a b => a.lastLba < b.firstLba := by
  induction placed generalizing start with
  | nil => exact .nil
  | cons first placed ih =>
      obtain ⟨_, _, rest⟩ := contiguous
      exact .cons (fun pl later => (rest.bounds.2 pl later).1) (ih rest)

/-! ## What a header says -/

def headerMyLba (h : Bytes) : Nat := decodeLE (slice h 24 8)
def headerAltLba (h : Bytes) : Nat := decodeLE (slice h 32 8)
def headerFirstUsable (h : Bytes) : Nat := decodeLE (slice h 40 8)
def headerLastUsable (h : Bytes) : Nat := decodeLE (slice h 48 8)
def headerEntriesLba (h : Bytes) : Nat := decodeLE (slice h 72 8)

/-- A header a reader accepts for these entries: signature, sizes and both checksums. -/
structure HeaderValid (h entries : Bytes) : Prop where
  signature : slice h 0 8 = utf8 "EFI PART"
  size : decodeLE (slice h 12 4) = headerSize
  count : decodeLE (slice h 80 4) * decodeLE (slice h 84 4) = entries.length
  crc : (crc32 (put (slice h 0 headerSize) 16 [0, 0, 0, 0])).toNat = decodeLE (slice h 16 4)
  entriesCrc : (crc32 entries).toNat = decodeLE (slice h 88 4)

theorem signature_length : (utf8 "EFI PART").length = 8 := by decide

theorem length_header_fields (a : HeaderArgs) : (headerFields a).length = 512 := by
  simp only [headerFields, length_put, List.length_replicate, sector]

/-- The fields a header is written from, each read where it was written. -/
theorem header_fields_read (a : HeaderArgs) :
    slice (headerFields a) 0 8 = utf8 "EFI PART" ∧
      slice (headerFields a) 12 4 = encodeLE 4 headerSize ∧
      slice (headerFields a) 16 4 = [0, 0, 0, 0] ∧
      slice (headerFields a) 24 8 = encodeLE 8 a.myLba ∧
      slice (headerFields a) 32 8 = encodeLE 8 a.altLba ∧
      slice (headerFields a) 40 8 = encodeLE 8 a.firstUsable ∧
      slice (headerFields a) 48 8 = encodeLE 8 a.lastUsable ∧
      slice (headerFields a) 72 8 = encodeLE 8 a.entriesLba ∧
      slice (headerFields a) 80 4 = encodeLE 4 entryCount ∧
      slice (headerFields a) 84 4 = encodeLE 4 entrySize ∧
      slice (headerFields a) 88 4 = encodeLE 4 a.entryCrc.toNat := by
  have blank : slice (List.replicate sector (0 : UInt8)) 16 4 = [0, 0, 0, 0] :=
    slice_replicate 0 sector 16 4 (by decide)
  have length : (List.replicate sector (0 : UInt8)).length = 512 := List.length_replicate
  unfold headerFields
  generalize List.replicate sector (0 : UInt8) = s at *
  refine ⟨?_, ?_, ?_, ?_, ?_, ?_, ?_, ?_, ?_, ?_, ?_⟩ <;>
    simp (disch := simp [signature_length, length]) only
      [slice_put_apart, slice_put_self, blank]

/-- Filling in the checksum leaves every other field as it was. -/
theorem header_read (a : HeaderArgs) (offset count : Nat)
    (apart : offset + count ≤ 16 ∨ 20 ≤ offset) :
    slice (header a) offset count = slice (headerFields a) offset count := by
  apply slice_put_apart
  rw [length_encode_le]
  omega

theorem decode_word (value : UInt32) : decodeLE (encodeLE 4 value.toNat) = value.toNat :=
  decode_encode_le_of_lt 4 _ value.toNat_lt

/-- A header is valid for the entries whose checksum it carries. -/
theorem header_valid (a : HeaderArgs) (entries : Bytes) (crc : a.entryCrc = crc32 entries)
    (size : entries.length = entryCount * entrySize) : HeaderValid (header a) entries := by
  obtain ⟨signature, length, blank, _, _, _, _, _, count, width, checksum⟩ :=
    header_fields_read a
  constructor
  · rw [header_read a 0 8 (by omega), signature]
  · rw [header_read a 12 4 (by omega), length]
    exact decode_encode_le_of_lt 4 headerSize (by decide)
  · rw [header_read a 80 4 (by omega), header_read a 84 4 (by omega), count, width, size,
      decode_encode_le_of_lt 4 entryCount (by decide),
      decode_encode_le_of_lt 4 entrySize (by decide)]
  · have restored : put (slice (header a) 0 headerSize) 16 [0, 0, 0, 0] =
        slice (headerFields a) 0 headerSize := by
      have within : headerSize ≤ (headerFields a).length := by
        rw [length_header_fields, headerSize]
        omega
      rw [header]
      exact put_back (headerFields a) 16 _ [0, 0, 0, 0] headerSize (length_encode_le 4 _) blank within
    rw [restored, header, slice_put_self _ 16 4 _ (length_encode_le 4 _)
      (by rw [length_header_fields]; omega), decode_word]
  · rw [header_read a 88 4 (by omega), checksum, decode_word, crc]

/-- The sector numbers of a header, where they fit their fields. -/
theorem header_numbers (a : HeaderArgs) (limit : a.lastUsable < 2 ^ 64)
    (own : a.myLba < 2 ^ 64) (other : a.altLba < 2 ^ 64) (first : a.firstUsable < 2 ^ 64)
    (entries : a.entriesLba < 2 ^ 64) :
    headerMyLba (header a) = a.myLba ∧ headerAltLba (header a) = a.altLba ∧
      headerFirstUsable (header a) = a.firstUsable ∧
      headerLastUsable (header a) = a.lastUsable ∧
      headerEntriesLba (header a) = a.entriesLba := by
  obtain ⟨_, _, _, mine, alternate, low, high, array, _, _, _⟩ := header_fields_read a
  unfold headerMyLba headerAltLba headerFirstUsable headerLastUsable headerEntriesLba
  rw [header_read a 24 8 (by omega), header_read a 32 8 (by omega), header_read a 40 8 (by omega),
    header_read a 48 8 (by omega), header_read a 72 8 (by omega), mine, alternate, low, high, array,
    decode_encode_le_of_lt 8 _ own, decode_encode_le_of_lt 8 _ other,
    decode_encode_le_of_lt 8 _ first, decode_encode_le_of_lt 8 _ limit,
    decode_encode_le_of_lt 8 _ entries]
  exact ⟨rfl, rfl, rfl, rfl, rfl⟩

/-! ## What the entry array says -/

theorem length_entry_bytes (p : PartSpec) (pl : Placed) : (entryBytes p pl).length = entrySize := by
  simp only [entryBytes, length_put, List.length_replicate]

theorem length_put_entries (array : Bytes) (i : Nat) (entries : List (PartSpec × Placed)) :
    (putEntries array i entries).length = array.length := by
  induction entries generalizing array i with
  | nil => rfl
  | cons entry entries ih => exact (ih _ _).trans (length_put _ _ _)

/-- Later entries leave what is before them alone. -/
theorem put_entries_before (array : Bytes) (i : Nat) (entries : List (PartSpec × Placed))
    (offset count : Nat) (before : offset + count ≤ i * entrySize) :
    slice (putEntries array i entries) offset count = slice array offset count := by
  induction entries generalizing array i with
  | nil => rfl
  | cons entry entries ih =>
      rw [putEntries, ih _ _ (by rw [Nat.succ_mul]; omega)]
      exact slice_put_apart _ _ _ _ _ (.inl before)

theorem put_entries_read (array : Bytes) (i : Nat) (entries : List (PartSpec × Placed))
    (room : (i + entries.length) * entrySize ≤ array.length) (j : Nat)
    (inside : j < entries.length) :
    slice (putEntries array i entries) ((i + j) * entrySize) entrySize =
      entryBytes entries[j].1 entries[j].2 := by
  induction entries generalizing array i j with
  | nil => exact absurd inside (Nat.not_lt_zero j)
  | cons entry entries ih =>
      rw [List.length_cons, Nat.add_mul, Nat.succ_mul] at room
      rw [putEntries]
      cases j with
      | zero =>
          rw [put_entries_before _ _ _ _ _ (by rw [Nat.succ_mul, Nat.add_zero])]
          exact slice_put_self _ _ _ _ (length_entry_bytes _ _) (by omega)
      | succ j =>
          have shifted : i + (j + 1) = i + 1 + j := by omega
          rw [shifted, ih _ _ _ _ (Nat.lt_of_succ_lt_succ inside)]
          · rfl
          · rw [length_put, Nat.add_mul, Nat.succ_mul]
            omega

theorem entry_read (p : PartSpec) (pl : Placed) :
    slice (entryBytes p pl) 0 16 = p.typeGuid.bytes ∧
      slice (entryBytes p pl) 16 16 = p.uniqueGuid.bytes ∧
      slice (entryBytes p pl) 32 8 = encodeLE 8 pl.firstLba ∧
      slice (entryBytes p pl) 40 8 = encodeLE 8 pl.lastLba := by
  have length : (List.replicate entrySize (0 : UInt8)).length = 128 := List.length_replicate
  unfold entryBytes
  generalize List.replicate entrySize (0 : UInt8) = e at *
  refine ⟨?_, ?_, ?_, ?_⟩ <;>
    simp (disch := simp [length]) only [slice_put_apart, slice_put_self]

/-- An entry's fields, read from the whole array. -/
structure EntryRead (entries : Bytes) (i : Nat) (p : PartSpec) (pl : Placed) : Prop where
  typeGuid : slice entries (i * entrySize) 16 = p.typeGuid.bytes
  uniqueGuid : slice entries (i * entrySize + 16) 16 = p.uniqueGuid.bytes
  firstLba : decodeLE (slice entries (i * entrySize + 32) 8) = pl.firstLba
  lastLba : decodeLE (slice entries (i * entrySize + 40) 8) = pl.lastLba

theorem entries_read (array : Bytes) (entries : List (PartSpec × Placed))
    (room : entries.length * entrySize ≤ array.length) (i : Nat) (inside : i < entries.length)
    (first : entries[i].2.firstLba < 2 ^ 64) (last : entries[i].2.lastLba < 2 ^ 64) :
    EntryRead (putEntries array 0 entries) i entries[i].1 entries[i].2 := by
  have whole := put_entries_read array 0 entries (by rwa [Nat.zero_add]) i inside
  rw [Nat.zero_add] at whole
  obtain ⟨type, unique, low, high⟩ := entry_read entries[i].1 entries[i].2
  have field : ∀ start count, start + count ≤ entrySize →
      slice (putEntries array 0 entries) (i * entrySize + start) count =
        slice (entryBytes entries[i].1 entries[i].2) start count := by
    intro start count within
    rw [← whole, slice_slice _ _ _ _ _ within]
  constructor
  · rw [← type, ← field 0 16 (by decide), Nat.add_zero]
  · rw [field 16 16 (by decide), unique]
  · rw [field 32 8 (by decide), low, decode_encode_le_of_lt 8 _ first]
  · rw [field 40 8 (by decide), high, decode_encode_le_of_lt 8 _ last]

end HorizonOs.Keybuild.Gpt
