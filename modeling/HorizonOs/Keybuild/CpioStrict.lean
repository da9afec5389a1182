import HorizonOs.Keybuild.Cpio
import HorizonOs.Lib.HexBytes
import HorizonOs.Lib.Machine

/-!
# What the archive reader takes

The reader with every index and every sum checked, the headers that it goes through, and what it
knows of each of them. Of the thirteen fields of a header it looks at five, with the standard
parser of a radix, which takes a sign.
-/

namespace HorizonOs.Keybuild.Cpio

open HorizonOs.Lib.ByteCodec HorizonOs.Lib.Buffer HorizonOs.Lib.Text HorizonOs.Lib.Hex
open HorizonOs.Lib.Machine HorizonOs.Lib.Runs

set_option autoImplicit false

/-! ## Headers -/

/-- The bytes of a header's field. -/
def fieldBytes (bytes : Bytes) (pos i : Nat) : Bytes := slice bytes (pos + 6 + i * 8) 8

/-- Mode, file size, device numbers and name size. -/
def readFields : List Nat := [1, 6, 9, 10, 11]

/-- Inode, owners, links, time, the device of the file itself and the checksum. -/
def skippedFields : List Nat := [0, 2, 3, 4, 5, 7, 8, 12]

/-- The name and the body that the header at a position speaks of lie in the archive, and the next
header comes behind them. -/
structure Inside (bytes : Bytes) (pos next : Nat) (namesize filesize : UInt32) : Prop where
  name_field : field bytes pos 11 = .ok namesize
  file_field : field bytes pos 6 = .ok filesize
  named : 1 ≤ namesize.toNat
  name : pos + headerLen + namesize.toNat ≤ bytes.length
  body : align4 (pos + headerLen + namesize.toNat) + filesize.toNat ≤ bytes.length
  next : next = align4 (align4 (pos + headerLen + namesize.toNat) + filesize.toNat)

/-- What was checked of a header whose record was read. -/
structure Checks (bytes : Bytes) (pos next : Nat) : Prop where
  header : pos + headerLen ≤ bytes.length
  magic : slice bytes pos 6 = magic
  fields : ∀ i ∈ readFields, ∃ value, field bytes pos i = .ok value
  inside : ∃ namesize filesize, Inside bytes pos next namesize filesize

theorem record_checks {bytes : Bytes} {pos : Nat} {record : RawRecord}
    (read : readRecord bytes pos = .ok record) : Checks bytes pos record.next := by
  rw [readRecord] at read
  split_ifs at read with room head
  obtain ⟨mode, mode_field, read⟩ := of_bind_ok read
  obtain ⟨filesize, file_field, read⟩ := of_bind_ok read
  obtain ⟨rdevmajor, major_field, read⟩ := of_bind_ok read
  obtain ⟨rdevminor, minor_field, read⟩ := of_bind_ok read
  obtain ⟨namesize, name_field, read⟩ := of_bind_ok read
  dsimp only at read
  split at read
  · cases read
  case isFalse inside =>
    rw [not_not] at inside
    split at read
    · cases read
    · split at read
      · cases read
      case isFalse body =>
        cases read
        refine ⟨Nat.le_of_not_lt room, not_not.mp head, ?_, namesize, filesize, name_field,
          file_field, inside.2, inside.1, not_not.mp body, rfl⟩
        simp only [readFields, List.forall_mem_cons]
        exact ⟨⟨mode, mode_field⟩, ⟨filesize, file_field⟩, ⟨rdevmajor, major_field⟩,
          ⟨rdevminor, minor_field⟩, ⟨namesize, name_field⟩, List.forall_mem_nil _⟩

/-- The headers that the reader goes through from a position on, with the trailer's. -/
inductive Chain (bytes : Bytes) : Nat → List Nat → Prop where
  | trailer {pos : Nat} {record : RawRecord} (read : readRecord bytes pos = .ok record)
      (named : record.name = trailer) : Chain bytes pos [pos]
  | record {pos : Nat} {record : RawRecord} {entry : Entry} {rest : List Nat}
      (read : readRecord bytes pos = .ok record) (other : record.name ≠ trailer)
      (made : record.entry = .ok entry) (later : Chain bytes record.next rest) :
      Chain bytes pos (pos :: rest)

theorem chain_unique {bytes : Bytes} {pos : Nat} {headers others : List Nat}
    (chain : Chain bytes pos headers) (other : Chain bytes pos others) : headers = others := by
  induction chain generalizing others with
  | trailer read named =>
      cases other with
      | trailer => rfl
      | record read' different =>
          rw [read] at read'
          cases read'
          exact absurd named different
  | record read different made later ih =>
      cases other with
      | trailer read' named =>
          rw [read] at read'
          cases read'
          exact absurd named different
      | record read' different' made' later' =>
          rw [read] at read'
          cases read'
          rw [ih later']

theorem checks_of_chain {bytes : Bytes} {pos : Nat} {headers : List Nat}
    (chain : Chain bytes pos headers) : ∀ at_ ∈ headers, ∃ next, Checks bytes at_ next := by
  induction chain with
  | trailer read named =>
      intro at_ member
      rw [List.mem_singleton.mp member]
      exact ⟨_, record_checks read⟩
  | record read other made later ih =>
      exact List.forall_mem_cons.mpr ⟨⟨_, record_checks read⟩, ih⟩

theorem chain_of_read (bytes : Bytes) (pos : Nat) (entries : List Entry)
    (read : readFrom bytes pos = .ok entries) :
    ∃ headers, Chain bytes pos headers ∧ headers.length = entries.length + 1 := by
  induction pos using readFrom.induct bytes generalizing entries with
  | case1 pos text failed =>
      rw [readFrom, failed] at read
      cases read
  | case2 pos record found named =>
      rw [readFrom, found] at read
      simp only [if_pos named] at read
      cases read
      exact ⟨[pos], .trailer found named, rfl⟩
  | case3 pos record found other ih =>
      rw [readFrom, found] at read
      simp only [if_neg other] at read
      obtain ⟨entry, made, read⟩ := of_bind_ok read
      obtain ⟨rest, later, read⟩ := of_bind_ok read
      cases read
      obtain ⟨headers, chain, count⟩ := ih rest later
      exact ⟨pos :: headers, .record found other made chain, congrArg (· + 1) count⟩

theorem read_of_chain {bytes : Bytes} {pos : Nat} {headers : List Nat}
    (chain : Chain bytes pos headers) : ∃ entries, readFrom bytes pos = .ok entries := by
  induction chain with
  | trailer read named =>
      refine ⟨[], ?_⟩
      rw [readFrom, read]
      exact if_pos named
  | @record pos record entry rest read other made later ih =>
      obtain ⟨entries, read_later⟩ := ih
      refine ⟨entry :: entries, ?_⟩
      rw [readFrom, read]
      simp only [if_neg other]
      exact bind_ok made (bind_ok read_later rfl)

/-! ## The reader with checks -/

/-- A slice of bytes is never longer than `isize::MAX`. -/
structure Archive where
  bytes : Bytes
  short : bytes.length < 2 ^ 63

/-- A sum or an index out of range, or an error of `read`. -/
inductive Stop where
  | fault
  | refused (text : String)
  deriving DecidableEq

namespace Checked

abbrev add (x y : Nat) : Except Stop Nat := checkedAdd .fault 64 x y

abbrev cut (bytes : Bytes) (start stop : Nat) : Except Stop Bytes :=
  checkedSlice .fault bytes start stop

def align4 (n : Nat) : Except Stop Nat := do
  let up ← add n 3
  pure (up / 4 * 4)

def field (bytes : Bytes) (pos i : Nat) : Except Stop UInt32 := do
  let fields ← add pos 6
  let start ← add fields (i * 8)
  let stop ← add start 8
  let text ← cut bytes start stop
  refusing .refused (parseHex8 text)

/-- The body behind a name that ends there, and where the next header comes. -/
def readBody (bytes : Bytes) (nameEnd filesize : Nat) : Except Stop (Bytes × Nat) := do
  let dataStart ← align4 nameEnd
  -- `checked_add`
  let dataEnd := dataStart + filesize
  if ¬(dataEnd < 2 ^ 64 ∧ dataEnd ≤ bytes.length) then .error (.refused "truncated data")
  else do
    let data ← cut bytes dataStart dataEnd
    let next ← align4 dataEnd
    pure (data, next)

def readRecord (bytes : Bytes) (pos : Nat) : Except Stop RawRecord := do
  let header ← add pos headerLen
  if bytes.length < header then .error (.refused "truncated header")
  else do
    let stop ← add pos 6
    let head ← cut bytes pos stop
    if head ≠ magic then .error (.refused "bad magic")
    else do
      let mode ← field bytes pos 1
      let filesize ← field bytes pos 6
      let rdevmajor ← field bytes pos 9
      let rdevminor ← field bytes pos 10
      let namesize ← field bytes pos 11
      let nameStart ← add pos headerLen
      -- `checked_add`
      let nameEnd := nameStart + namesize.toNat
      if ¬(nameEnd < 2 ^ 64 ∧ nameEnd ≤ bytes.length ∧ 1 ≤ namesize.toNat) then
        .error (.refused "truncated name")
      else do
        let stop ← checkedSub .fault nameEnd 1
        let text ← cut bytes nameStart stop
        match fromUtf8 text with
        | none => .error (.refused "non-utf8 name")
        | some name => do
            let (data, next) ← readBody bytes nameEnd filesize.toNat
            pure ⟨mode, rdevmajor, rdevminor, name, data, next⟩

end Checked

section Range

variable {bytes : Bytes} {pos : Nat}

theorem checked_align4 {n : Nat} (small : n + 3 < 2 ^ 64) : Checked.align4 n = .ok (align4 n) :=
  bind_ok (checked_add_ok small) rfl

theorem checked_field (short : bytes.length < 2 ^ 63) (header : pos + headerLen ≤ bytes.length)
    {i : Nat} (one : i < 13) :
    Checked.field bytes pos i = refusing Stop.refused (field bytes pos i) := by
  have wide : headerLen = 110 := rfl
  have stop : pos + 6 + i * 8 + 8 - (pos + 6 + i * 8) = 8 := Nat.add_sub_cancel_left _ _
  have sliced : checkedSlice Stop.fault bytes (pos + 6 + i * 8) (pos + 6 + i * 8 + 8) =
      .ok (slice bytes (pos + 6 + i * 8) 8) := by
    rw [checked_slice_ok (Nat.le_add_right _ 8) (by omega), stop]
  rw [Checked.field, Checked.add, checked_add_ok (by omega)]
  change (Checked.add (pos + 6) (i * 8) >>= _) = _
  rw [Checked.add, checked_add_ok (by omega)]
  change (Checked.add (pos + 6 + i * 8) 8 >>= _) = _
  rw [Checked.add, checked_add_ok (by omega)]
  change (Checked.cut bytes (pos + 6 + i * 8) (pos + 6 + i * 8 + 8) >>= _) = _
  rw [Checked.cut, sliced]
  rfl

theorem checked_body (short : bytes.length < 2 ^ 63) {nameEnd : Nat} (name : nameEnd ≤ bytes.length)
    (filesize : UInt32) : Checked.readBody bytes nameEnd filesize.toNat =
      if ¬align4 nameEnd + filesize.toNat ≤ bytes.length then .error (.refused "truncated data")
      else .ok (slice bytes (align4 nameEnd) filesize.toNat,
        align4 (align4 nameEnd + filesize.toNat)) := by
  have small := filesize.toNat_lt
  have aligned : align4 nameEnd ≤ nameEnd + 3 := Nat.div_mul_le_self _ _
  rw [Checked.readBody, checked_align4 (by omega)]
  change (if ¬(align4 nameEnd + filesize.toNat < 2 ^ 64 ∧
    align4 nameEnd + filesize.toNat ≤ bytes.length) then _ else _) = _
  by_cases inside : align4 nameEnd + filesize.toNat ≤ bytes.length
  case neg =>
    rw [if_pos fun both => inside both.2, if_pos inside]
  have size : align4 nameEnd + filesize.toNat - align4 nameEnd = filesize.toNat :=
    Nat.add_sub_cancel_left _ _
  rw [if_neg (not_not.mpr ⟨by omega, inside⟩), if_neg (not_not.mpr inside), Checked.cut,
    checked_slice_ok (Nat.le_add_right _ _) inside, size]
  change (Checked.align4 (align4 nameEnd + filesize.toNat) >>= _) = _
  rw [checked_align4 (by omega)]
  rfl

theorem checked_record (short : bytes.length < 2 ^ 63) (range : pos + headerLen < 2 ^ 64) :
    Checked.readRecord bytes pos = refusing Stop.refused (readRecord bytes pos) := by
  have wide : headerLen = 110 := rfl
  rw [Checked.readRecord, Checked.add, checked_add_ok range, readRecord]
  change (if bytes.length < pos + headerLen then _ else _) = _
  by_cases room : bytes.length < pos + headerLen
  · rw [if_pos room, if_pos room]
    rfl
  have header : pos + headerLen ≤ bytes.length := Nat.le_of_not_lt room
  have magicSize : pos + 6 - pos = 6 := Nat.add_sub_cancel_left _ _
  rw [if_neg room, if_neg room, Checked.add, checked_add_ok (by omega)]
  change (Checked.cut bytes pos (pos + 6) >>= _) = _
  rw [Checked.cut, checked_slice_ok (by omega) (by omega), magicSize]
  change (if slice bytes pos 6 ≠ magic then _ else _) = _
  by_cases head : slice bytes pos 6 ≠ magic
  · rw [if_pos head, if_pos head]
    rfl
  rw [if_neg head, if_neg head]
  simp only [refusing_bind, checked_field short header (by decide : 1 < 13),
    checked_field short header (by decide : 6 < 13), checked_field short header (by decide : 9 < 13),
    checked_field short header (by decide : 10 < 13),
    checked_field short header (by decide : 11 < 13)]
  refine bind_congr fun mode => bind_congr fun filesize => bind_congr fun rdevmajor =>
    bind_congr fun rdevminor => bind_congr fun namesize => ?_
  have small := namesize.toNat_lt
  change (if ¬(pos + headerLen + namesize.toNat < 2 ^ 64 ∧
    pos + headerLen + namesize.toNat ≤ bytes.length ∧ 1 ≤ namesize.toNat) then _ else _) = _
  by_cases inside : pos + headerLen + namesize.toNat ≤ bytes.length ∧ 1 ≤ namesize.toNat
  case neg =>
    rw [if_pos fun both => inside both.2, if_pos inside]
    rfl
  have nameSize : pos + headerLen + namesize.toNat - 1 - (pos + headerLen) = namesize.toNat - 1 := by
    omega
  rw [if_neg (not_not.mpr ⟨by omega, inside⟩), if_neg (not_not.mpr inside),
    checked_sub_ok (by omega)]
  change (Checked.cut bytes (pos + headerLen) (pos + headerLen + namesize.toNat - 1) >>= _) = _
  rw [Checked.cut, checked_slice_ok (by omega) (by omega), nameSize]
  change (match fromUtf8 (slice bytes (pos + headerLen) (namesize.toNat - 1)) with
    | none => _ | some name => _) = _
  cases fromUtf8 (slice bytes (pos + headerLen) (namesize.toNat - 1)) with
  | none => rfl
  | some name =>
      dsimp only
      rw [checked_body short inside.1 filesize]
      split
      · rfl
      · rfl

theorem record_of_checked {record : RawRecord} (short : bytes.length < 2 ^ 63)
    (read : Checked.readRecord bytes pos = .ok record) : readRecord bytes pos = .ok record := by
  by_cases range : pos + headerLen < 2 ^ 64
  · rw [checked_record short range] at read
    cases plain : readRecord bytes pos with
    | error text =>
        rw [plain] at read
        cases read
    | ok found =>
        rw [plain] at read
        cases read
        rfl
  · rw [Checked.readRecord, Checked.add, checkedAdd, if_neg range] at read
    cases read

theorem next_in_range {next : Nat} (checks : Checks bytes pos next) : next ≤ bytes.length + 3 := by
  obtain ⟨namesize, filesize, inside⟩ := checks.inside
  rw [inside.next]
  exact Nat.le_trans (Nat.div_mul_le_self _ 4) (Nat.add_le_add_right inside.body 3)

end Range

/-- The loop of `read` with checks. -/
def Checked.readFrom (archive : Archive) (pos : Nat) : Except Stop (List Entry) :=
  match _ : Checked.readRecord archive.bytes pos with
  | .error stop => .error stop
  | .ok record =>
      if record.name = trailer then .ok []
      else do
        let entry ← refusing .refused record.entry
        let rest ← readFrom archive record.next
        .ok (entry :: rest)
termination_by archive.bytes.length - pos
decreasing_by
  have bounds := read_record_bounds
    (record_of_checked archive.short ‹Checked.readRecord archive.bytes pos = .ok record›)
  omega

def Checked.read (archive : Archive) : Except Stop (List Entry) := Checked.readFrom archive 0

/-- No index and no sum of the reader is out of range: with checks it does the same. -/
theorem checked_read_from (archive : Archive) (pos : Nat) (range : pos ≤ archive.bytes.length + 3) :
    Checked.readFrom archive pos = refusing Stop.refused (readFrom archive.bytes pos) := by
  have short := archive.short
  have wide : headerLen = 110 := rfl
  induction pos using readFrom.induct archive.bytes with
  | case1 pos text failed =>
      have checked := checked_record short (show pos + headerLen < 2 ^ 64 by omega)
      rw [failed] at checked
      rw [Checked.readFrom, readFrom, checked, failed]
      rfl
  | case2 pos record found named =>
      have checked := checked_record short (show pos + headerLen < 2 ^ 64 by omega)
      rw [found] at checked
      rw [Checked.readFrom, readFrom, checked, found]
      simp only [refusing, if_pos named]
  | case3 pos record found other ih =>
      have checked := checked_record short (show pos + headerLen < 2 ^ 64 by omega)
      rw [found] at checked
      rw [Checked.readFrom, readFrom, checked, found]
      simp only [refusing, if_neg other, ih (next_in_range (record_checks found))]
      cases record.entry with
      | error text => rfl
      | ok entry => cases readFrom archive.bytes record.next <;> rfl

theorem checked_read (archive : Archive) :
    Checked.read archive = refusing Stop.refused (read archive.bytes) :=
  checked_read_from archive 0 (Nat.zero_le _)

/-! ## Strictness -/

/-- What a header has to be: the magic, thirteen fields of eight hexadecimal digits, and a name and
a body that lie in the archive. -/
structure WellFormed (bytes : Bytes) (pos : Nat) : Prop where
  magic : slice bytes pos 6 = magic
  fields : ∀ i < 13, (fieldBytes bytes pos i).length = 8 ∧ ∀ byte ∈ fieldBytes bytes pos i, HexByte byte
  inside : ∃ next namesize filesize, Inside bytes pos next namesize filesize

/-- The reader stays in range, and what it takes is an archive of well-formed headers, one for each
entry and one for the trailer. -/
structure ReadsStrictly (archive : Archive) : Prop where
  inRange : Checked.read archive ≠ .error .fault
  strict : ∀ entries, Checked.read archive = .ok entries → ∃ headers,
    Chain archive.bytes 0 headers ∧ headers.length = entries.length + 1 ∧
      ∀ pos ∈ headers, WellFormed archive.bytes pos

/-- The fields that are not read are digits, and those that are begin with no sign. -/
structure Plain (bytes : Bytes) (pos : Nat) : Prop where
  skipped : ∀ i ∈ skippedFields, ∀ byte ∈ fieldBytes bytes pos i, HexByte byte
  unsigned : ∀ i ∈ readFields, (fieldBytes bytes pos i).head? ≠ some 43

theorem read_or_skipped : ∀ i < 13, i ∈ readFields ∨ i ∈ skippedFields := by decide

theorem listed_fields : (∀ i ∈ readFields, i < 13) ∧ ∀ i ∈ skippedFields, i < 13 := by decide

theorem hex_of_field {bytes : Bytes} {pos i : Nat} {value : UInt32}
    (read : field bytes pos i = .ok value) (plain : (fieldBytes bytes pos i).head? ≠ some 43) :
    ∀ byte ∈ fieldBytes bytes pos i, HexByte byte := by
  rw [field, parseHex8] at read
  split at read
  · cases read
  case h_2 text decoded =>
    split at read
    · cases read
    case h_2 number parsed =>
      exact hex_bytes_of_parse decoded (Option.isSome_iff_exists.mpr ⟨number, parsed⟩) plain

theorem well_formed_iff {bytes : Bytes} {pos next : Nat} (checks : Checks bytes pos next) :
    WellFormed bytes pos ↔ Plain bytes pos := by
  constructor
  · intro formed
    refine ⟨fun i member => (formed.fields i (listed_fields.2 i member)).2, ?_⟩
    intro i member sign
    obtain ⟨rest, signed⟩ := List.head?_eq_some_iff.mp sign
    have digit := (formed.fields i (listed_fields.1 i member)).2 43
      (signed ▸ List.mem_cons_self)
    revert digit
    decide
  · intro plain
    have wide : headerLen = 110 := rfl
    have header := checks.header
    refine ⟨checks.magic, ?_, next, checks.inside⟩
    intro i one
    refine ⟨length_slice bytes _ 8 (by omega), ?_⟩
    rcases read_or_skipped i one with member | member
    · obtain ⟨value, read⟩ := checks.fields i member
      exact hex_of_field read (plain.unsigned i member)
    · exact plain.skipped i member

theorem formed_of_strict {archive : Archive} {headers : List Nat} (strictly : ReadsStrictly archive)
    (chain : Chain archive.bytes 0 headers) : ∀ pos ∈ headers, WellFormed archive.bytes pos := by
  obtain ⟨entries, read⟩ := read_of_chain chain
  have checked : Checked.read archive = .ok entries := by
    rw [checked_read]
    change refusing Stop.refused (readFrom archive.bytes 0) = _
    rw [read]
    rfl
  obtain ⟨others, other, -, formed⟩ := strictly.strict entries checked
  exact chain_unique other chain ▸ formed

/-- The reader is total, and strict unless an archive it takes has a header with a field that it
does not look at and that is not hexadecimal, or with a sign in one that it does. -/
theorem reads_strictly_iff (archive : Archive) : ReadsStrictly archive ↔
    ∀ headers, Chain archive.bytes 0 headers → ∀ pos ∈ headers, Plain archive.bytes pos := by
  have same := checked_read archive
  constructor
  · intro strictly headers chain pos member
    obtain ⟨next, checks⟩ := checks_of_chain chain pos member
    exact (well_formed_iff checks).mp (formed_of_strict strictly chain pos member)
  · intro plain
    constructor
    · rw [same]
      cases read archive.bytes with
      | ok entries => exact fun stopped => by cases stopped
      | error text => exact fun stopped => by cases stopped
    · intro entries checked
      have read : readFrom archive.bytes 0 = .ok entries := by
        rw [same] at checked
        change refusing Stop.refused (readFrom archive.bytes 0) = _ at checked
        cases plainly : readFrom archive.bytes 0 with
        | ok found =>
            rw [plainly] at checked
            cases checked
            rfl
        | error text =>
            rw [plainly] at checked
            cases checked
      obtain ⟨headers, chain, count⟩ := chain_of_read archive.bytes 0 entries read
      refine ⟨headers, chain, count, ?_⟩
      intro pos member
      obtain ⟨next, checks⟩ := checks_of_chain chain pos member
      exact (well_formed_iff checks).mpr (plain headers chain pos member)

/-- The trailer alone, with an inode that is no number and a size with a sign. -/
def oddTrailer : Archive where
  bytes := utf8 ("070701" ++ "ZZZZZZZZ" ++ String.join (List.replicate 10 "00000000") ++ "+000000B" ++
    "00000000" ++ "TRAILER!!!") ++ [0, 0, 0, 0]
  short := by decide +kernel

theorem odd_trailer_taken : ∃ record, readRecord oddTrailer.bytes 0 = .ok record ∧
    record.name = trailer := by
  have name : (readRecord oddTrailer.bytes 0).map RawRecord.name = .ok trailer := by decide +kernel
  cases read : readRecord oddTrailer.bytes 0 with
  | error text =>
      rw [read] at name
      cases name
  | ok record =>
      rw [read] at name
      exact ⟨record, rfl, Except.ok.inj name⟩

theorem odd_trailer_not_strict : Checked.read oddTrailer = .ok [] ∧ ¬ReadsStrictly oddTrailer := by
  obtain ⟨record, taken, named⟩ := odd_trailer_taken
  constructor
  · rw [checked_read, read, readFrom, taken]
    simp only [if_pos named]
    rfl
  · intro strictly
    have formed := formed_of_strict strictly (.trailer taken named) 0 (List.mem_singleton_self 0)
    have digit := (formed.fields 0 (by decide)).2 90 (by decide)
    revert digit
    decide

end HorizonOs.Keybuild.Cpio
