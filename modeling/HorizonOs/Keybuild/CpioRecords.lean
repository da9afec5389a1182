import HorizonOs.Keybuild.CpioListing

/-!
# An archive as a list of records

The writer appends one record after the other, each a multiple of four bytes, and the reader
finds in each what was put there, as far as the sizes fit their fields.
-/

namespace HorizonOs.Keybuild.Cpio

open HorizonOs.Lib.ByteCodec HorizonOs.Lib.Buffer HorizonOs.Lib.Text HorizonOs.Lib.Hex
open HorizonOs.Lib.Runs

set_option autoImplicit false

/-! ## Padding -/

theorem align4_mod (n : Nat) : align4 n % 4 = 0 := by
  rw [align4]
  omega

theorem align4_add (start n : Nat) (aligned : start % 4 = 0) :
    align4 (start + n) = start + align4 n := by
  rw [align4, align4]
  omega

theorem length_pad4 (out : Bytes) : (pad4 out).length = align4 out.length := by
  rw [pad4, List.length_append, List.length_replicate, align4]
  omega

theorem pad4_append (out more : Bytes) (aligned : out.length % 4 = 0) :
    pad4 (out ++ more) = out ++ pad4 more := by
  have same : (4 - (out ++ more).length % 4) % 4 = (4 - more.length % 4) % 4 := by
    rw [List.length_append]
    omega
  rw [pad4, pad4, same, List.append_assoc]

/-! ## Fields -/

theorem length_hex8 (value : UInt32) : (hex8 value).length = 8 := utf8_upper_hex_length 8 _

theorem parse_hex8 (value : UInt32) : parseHex8 (hex8 value) = .ok value := by
  have range : value.toNat % 16 ^ 8 = value.toNat := Nat.mod_eq_of_lt value.toNat_lt
  rw [parseHex8, hex8, from_utf8_utf8]
  simp only [String.toList_ofList]
  rw [parse_upper_hex 7, range]
  exact congrArg Except.ok (UInt32.ofNat_toNat)

/-! ## One record -/

structure Record where
  path : String
  mode : UInt32
  nlink : UInt32
  rdevmajor : UInt32
  rdevminor : UInt32
  data : Bytes

def namesize (record : Record) : UInt32 := UInt32.ofNat (utf8 record.path).length + 1

def headerFields (ino : UInt32) (record : Record) : List UInt32 :=
  [ino, record.mode, 0, 0, record.nlink, 0, UInt32.ofNat record.data.length, 0, 0,
    record.rdevmajor, record.rdevminor, namesize record, 0]

def header (ino : UInt32) (record : Record) : Bytes :=
  magic ++ (headerFields ino record).flatMap hex8

def encodeRecord (ino : UInt32) (record : Record) : Bytes :=
  pad4 (pad4 (header ino record ++ (utf8 record.path ++ [0])) ++ record.data)

theorem length_magic : magic.length = 6 := by decide

theorem length_header (ino : UInt32) (record : Record) :
    (header ino record).length = headerLen := by
  rw [header, List.length_append, length_magic, List.length_flatMap,
    List.map_congr_left fun value _ => length_hex8 value]
  rfl

theorem length_encode_record (ino : UInt32) (record : Record) :
    (encodeRecord ino record).length =
      align4 (align4 (headerLen + (utf8 record.path).length + 1) + record.data.length) := by
  rw [encodeRecord, length_pad4, List.length_append, length_pad4, List.length_append,
    List.length_append, length_header, List.length_singleton, Nat.add_assoc]

theorem push_fields (out : Bytes) (fields : List UInt32) :
    fields.foldl pushHex8 out = out ++ fields.flatMap hex8 := by
  induction fields generalizing out with
  | nil => exact (List.append_nil out).symm
  | cons value fields ih => rw [List.foldl_cons, ih, pushHex8, List.flatMap_cons, List.append_assoc]

def emit (state : Output) (record : Record) : Output :=
  writeRecord state record.path record.mode record.nlink record.rdevmajor record.rdevminor
    record.data

theorem emit_eq (state : Output) (record : Record) (aligned : state.out.length % 4 = 0) :
    emit state record = ⟨state.out ++ encodeRecord state.ino record, state.ino + 1⟩ := by
  have front : (headerFields state.ino record).foldl pushHex8 (state.out ++ magic) ++
      utf8 record.path ++ [0] =
        state.out ++ (header state.ino record ++ (utf8 record.path ++ [0])) := by
    rw [push_fields, header]
    simp only [List.append_assoc]
  change Output.mk (pad4 (pad4 ((headerFields state.ino record).foldl pushHex8
    (state.out ++ magic) ++ utf8 record.path ++ [0]) ++ record.data)) (state.ino + 1) = _
  rw [front, pad4_append _ _ aligned, List.append_assoc, pad4_append _ _ aligned, encodeRecord]

/-- Records with the inodes from one on. -/
def archive (ino : UInt32) : List Record → Bytes
  | [] => []
  | record :: records => encodeRecord ino record ++ archive (ino + 1) records

theorem emit_all (records : List Record) (state : Output) (aligned : state.out.length % 4 = 0) :
    (records.foldl emit state).out = state.out ++ archive state.ino records := by
  induction records generalizing state with
  | nil => exact (List.append_nil _).symm
  | cons record records ih =>
      have size := length_encode_record state.ino record
      have multiple := align4_mod (align4 (headerLen + (utf8 record.path).length + 1) +
        record.data.length)
      rw [List.foldl_cons, emit_eq state record aligned, ih, archive, List.append_assoc]
      rw [List.length_append, size]
      omega

/-! ## A record read where it was written -/

section Reading

variable (before after : Bytes) (ino : UInt32) (record : Record)

/-- What lies in a record, seen from the start of the archive. -/
theorem slice_record (offset count : Nat)
    (inside : offset + count ≤ (encodeRecord ino record).length) :
    slice (before ++ (encodeRecord ino record ++ after)) (before.length + offset) count =
      slice (encodeRecord ino record) offset count := by
  rw [slice_append_right, slice_append_left _ _ _ _ inside]

theorem front_length :
    (pad4 (header ino record ++ (utf8 record.path ++ [0]))).length =
      align4 (headerLen + (utf8 record.path).length + 1) := by
  rw [length_pad4, List.length_append, List.length_append, length_header, List.length_singleton,
    Nat.add_assoc]

theorem front_slice (offset count : Nat)
    (inside : offset + count ≤ headerLen + (utf8 record.path).length) :
    slice (encodeRecord ino record) offset count =
      slice (header ino record ++ utf8 record.path) offset count := by
  have whole : (header ino record ++ utf8 record.path).length =
      headerLen + (utf8 record.path).length := by
    rw [List.length_append, length_header]
  have size := front_length ino record
  have room := le_align4 (headerLen + (utf8 record.path).length + 1)
  rw [encodeRecord, pad4, List.append_assoc, slice_append_left _ _ _ _ (by omega), pad4,
    ← List.append_assoc, List.append_assoc, slice_append_left _ _ _ _ (by omega)]

theorem slice_magic : slice (encodeRecord ino record) 0 6 = magic := by
  rw [front_slice ino record 0 6 (by rw [headerLen]; omega), header, List.append_assoc,
    slice_append_left _ _ _ _ (by rw [length_magic]), slice_whole magic 6 length_magic]

theorem slice_field (i : Nat) (value : UInt32)
    (stands : (headerFields ino record)[i]? = some value) :
    slice (encodeRecord ino record) (6 + i * 8) 8 = hex8 value := by
  have index : i < 13 := (List.getElem?_eq_some_iff.mp stands).1
  have fields := slice_flat_map (headerFields ino record) hex8 8 length_hex8 i value stands
  have start := slice_append_right magic ((headerFields ino record).flatMap hex8) (i * 8) 8
  rw [length_magic, fields] at start
  rw [front_slice ino record _ 8 (by rw [headerLen]; omega),
    slice_append_left _ _ _ _ (by rw [length_header, headerLen]; omega), header, start]

theorem slice_name :
    slice (encodeRecord ino record) headerLen (utf8 record.path).length = utf8 record.path := by
  have name := slice_append_right (header ino record) (utf8 record.path) 0
    (utf8 record.path).length
  rw [length_header, Nat.add_zero, slice_whole _ _ rfl] at name
  rw [front_slice ino record _ _ le_rfl, name]

theorem slice_data :
    slice (encodeRecord ino record) (align4 (headerLen + (utf8 record.path).length + 1))
      record.data.length = record.data := by
  have data := slice_append_right (pad4 (header ino record ++ (utf8 record.path ++ [0])))
    record.data 0 record.data.length
  rw [front_length, Nat.add_zero, slice_whole _ _ rfl] at data
  rw [encodeRecord, pad4, slice_append_left, data]
  rw [List.length_append, front_length]

variable (aligned : before.length % 4 = 0)

theorem field_record (i : Nat) (value : UInt32)
    (stands : (headerFields ino record)[i]? = some value) :
    field (before ++ (encodeRecord ino record ++ after)) before.length i = .ok value := by
  have index : i < 13 := (List.getElem?_eq_some_iff.mp stands).1
  have size := length_encode_record ino record
  have inner := le_align4 (headerLen + (utf8 record.path).length + 1)
  have outer := le_align4 (align4 (headerLen + (utf8 record.path).length + 1) +
    record.data.length)
  rw [field, Nat.add_assoc, slice_record _ _ _ _ _ _ (by rw [size]; unfold headerLen at *; omega),
    slice_field ino record i value stands, parse_hex8]

include aligned

theorem read_record (short : (utf8 record.path).length < 2 ^ 32 - 1)
    (small : record.data.length < 2 ^ 32) :
    readRecord (before ++ (encodeRecord ino record ++ after)) before.length =
      .ok ⟨record.mode, record.rdevmajor, record.rdevminor, record.path, record.data,
        (before ++ encodeRecord ino record).length⟩ := by
  have size := length_encode_record ino record
  have inner := le_align4 (headerLen + (utf8 record.path).length + 1)
  have outer := le_align4 (align4 (headerLen + (utf8 record.path).length + 1) +
    record.data.length)
  have fixed : headerLen = 110 := rfl
  have total : (before ++ (encodeRecord ino record ++ after)).length =
      before.length + (encodeRecord ino record).length + after.length := by
    rw [List.length_append, List.length_append, Nat.add_assoc]
  have filesize : (UInt32.ofNat record.data.length).toNat = record.data.length := by
    rw [UInt32.toNat_ofNat', Nat.mod_eq_of_lt small]
  have names : (namesize record).toNat = (utf8 record.path).length + 1 := by
    rw [namesize, UInt32.toNat_add, UInt32.toNat_ofNat', UInt32.toNat_one]
    omega
  have head := slice_record before after ino record 0 6 (by omega)
  rw [slice_magic, Nat.add_zero] at head
  have name := slice_record before after ino record headerLen (utf8 record.path).length (by omega)
  rw [slice_name] at name
  have data := slice_record before after ino record
    (align4 (headerLen + (utf8 record.path).length + 1)) record.data.length (by omega)
  rw [slice_data] at data
  have dataStart : align4 (before.length + headerLen + ((utf8 record.path).length + 1)) =
      before.length + align4 (headerLen + (utf8 record.path).length + 1) := by
    rw [Nat.add_assoc, ← Nat.add_assoc headerLen, align4_add _ _ aligned]
  have next : align4 (before.length + align4 (headerLen + (utf8 record.path).length + 1) +
      record.data.length) = (before ++ encodeRecord ino record).length := by
    rw [Nat.add_assoc, align4_add _ _ aligned, List.length_append, size]
  rw [readRecord, if_neg (by omega), if_neg (not_not.mpr head),
    field_record before after ino record 1 record.mode rfl,
    field_record before after ino record 6 (UInt32.ofNat record.data.length) rfl,
    field_record before after ino record 9 record.rdevmajor rfl,
    field_record before after ino record 10 record.rdevminor rfl,
    field_record before after ino record 11 (namesize record) rfl]
  dsimp only [bind, Except.bind]
  rw [names, filesize, if_neg (not_not.mpr ⟨by omega, by omega⟩), Nat.add_sub_cancel, name,
    from_utf8_utf8, dataStart]
  dsimp only
  rw [if_neg (not_not.mpr (by omega)), data, next]

end Reading

/-! ## The loop over the records -/

theorem read_from_ok {bytes : Bytes} {pos : Nat} {record : RawRecord}
    (read : readRecord bytes pos = .ok record) :
    readFrom bytes pos =
      if record.name = trailer then .ok []
      else (do
        let entry ← record.entry
        let rest ← readFrom bytes record.next
        .ok (entry :: rest)) := by
  rw [readFrom]
  split
  · next text failed =>
      rw [read] at failed
      cases failed
  · next other found =>
      rw [read] at found
      cases found
      rfl

theorem inodes_from_ok {bytes : Bytes} {pos : Nat} {record : RawRecord}
    (read : readRecord bytes pos = .ok record) :
    inodesFrom bytes pos = (do
      let ino ← field bytes pos 0
      if record.name = trailer then .ok ([ino], record.next)
      else do
        let (rest, stop) ← inodesFrom bytes record.next
        .ok (ino :: rest, stop)) := by
  rw [inodesFrom]
  split
  · next text failed =>
      rw [read] at failed
      cases failed
  · next other found =>
      rw [read] at found
      cases found
      rfl

/-- A record whose sizes fit their fields. -/
structure Record.Fits (record : Record) : Prop where
  path : (utf8 record.path).length < 2 ^ 32 - 1
  data : record.data.length < 2 ^ 32

/-- What the reader makes of a record. -/
def Record.Shows (record : Record) (entry : Entry) : Prop :=
  ∀ next, (RawRecord.mk record.mode record.rdevmajor record.rdevminor record.path record.data
    next).entry = .ok entry

def trailerRecord : Record := ⟨trailer, 0, 1, 0, 0, []⟩

theorem trailer_fits : trailerRecord.Fits := by
  constructor
  · have size : (utf8 trailer).length = 10 := by decide
    rw [trailerRecord, size]
    decide
  · exact Nat.two_pow_pos 32

theorem archive_append (before : Bytes) (ino : UInt32) (record : Record) (records : List Record) :
    before ++ archive ino (record :: records) =
      (before ++ encodeRecord ino record) ++ archive (ino + 1) records := by
  rw [archive, List.append_assoc]

theorem record_aligned (before : Bytes) (ino : UInt32) (record : Record)
    (aligned : before.length % 4 = 0) : (before ++ encodeRecord ino record).length % 4 = 0 := by
  have multiple := align4_mod (align4 (headerLen + (utf8 record.path).length + 1) +
    record.data.length)
  rw [List.length_append, length_encode_record]
  omega

theorem read_archive {records : List Record} {entries : List Entry}
    (shown : List.Forall₂ Record.Shows records entries)
    (fits : ∀ record ∈ records, record.Fits ∧ record.path ≠ trailer) (before : Bytes)
    (ino : UInt32) (aligned : before.length % 4 = 0) :
    readFrom (before ++ archive ino (records ++ [trailerRecord])) before.length = .ok entries := by
  induction shown generalizing before ino with
  | nil =>
      have read := read_record before [] ino trailerRecord aligned trailer_fits.path
        trailer_fits.data
      rw [List.nil_append, archive, archive, read_from_ok read]
      exact if_pos rfl
  | @cons record entry records entries shows _ ih =>
      obtain ⟨fit, other⟩ := fits record List.mem_cons_self
      have read := read_record before (archive (ino + 1) (records ++ [trailerRecord])) ino record
        aligned fit.path fit.data
      have rest := ih (fun record member => fits record (List.mem_cons_of_mem _ member))
        (before ++ encodeRecord ino record) (ino + 1) (record_aligned before ino record aligned)
      rw [← archive_append, ← List.cons_append, List.cons_append, archive] at rest
      rw [List.cons_append, archive, read_from_ok read, if_neg other]
      apply bind_ok (shows _)
      exact bind_ok rest rfl

/-- The inodes of so many records from one on. -/
def inodesOf (ino : UInt32) : Nat → List UInt32
  | 0 => []
  | count + 1 => ino :: inodesOf (ino + 1) count

theorem inodes_archive (records : List Record)
    (fits : ∀ record ∈ records, record.Fits ∧ record.path ≠ trailer) (before : Bytes)
    (ino : UInt32) (aligned : before.length % 4 = 0) :
    inodesFrom (before ++ archive ino (records ++ [trailerRecord])) before.length =
      .ok (inodesOf ino (records.length + 1),
        (before ++ archive ino (records ++ [trailerRecord])).length) := by
  induction records generalizing before ino with
  | nil =>
      have read := read_record before [] ino trailerRecord aligned trailer_fits.path
        trailer_fits.data
      have ino := field_record before [] ino trailerRecord 0 ino rfl
      rw [List.nil_append, archive, archive, inodes_from_ok read]
      apply bind_ok ino
      apply (if_pos rfl).trans
      rw [List.append_nil]
      rfl
  | cons record records ih =>
      obtain ⟨fit, other⟩ := fits record List.mem_cons_self
      have read := read_record before (archive (ino + 1) (records ++ [trailerRecord])) ino record
        aligned fit.path fit.data
      have own := field_record before (archive (ino + 1) (records ++ [trailerRecord])) ino record 0
        ino rfl
      have rest := ih (fun record member => fits record (List.mem_cons_of_mem _ member))
        (before ++ encodeRecord ino record) (ino + 1) (record_aligned before ino record aligned)
      rw [← archive_append, ← List.cons_append, List.cons_append, archive] at rest
      rw [List.cons_append, archive, inodes_from_ok read]
      apply bind_ok own
      rw [if_neg other]
      exact bind_ok rest rfl

end HorizonOs.Keybuild.Cpio
