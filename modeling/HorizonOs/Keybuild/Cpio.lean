import Mathlib.Data.String.Basic
import HorizonOs.Lib.Buffer
import HorizonOs.Lib.Hex
import HorizonOs.Lib.Runs

/-!
# The archive of an initramfs

A tree of directories, files, symlinks and device nodes is written as a sequence of records:
a header of hexadecimal fields, the name with a NUL, the data, the last two filled to four
bytes. `read` is the reader half. Integers are `u32` as in the source, and wrap as they do in
a release build.
-/

namespace HorizonOs.Keybuild.Cpio

open HorizonOs.Lib.ByteCodec HorizonOs.Lib.Buffer HorizonOs.Lib.Text HorizonOs.Lib.Hex
open HorizonOs.Lib.Runs

set_option autoImplicit false

def magic : Bytes := utf8 "070701"

/-- The name of the record that ends an archive. -/
def trailer : String := "TRAILER!!!"

/-- The magic and thirteen fields of eight digits. -/
def headerLen : Nat := 6 + 13 * 8

def sIfmt : UInt32 := 0o170000
def sIfdir : UInt32 := 0o040000
def sIfreg : UInt32 := 0o100000
def sIflnk : UInt32 := 0o120000
def sIfchr : UInt32 := 0o020000
def sIfblk : UInt32 := 0o060000

def inoBase : UInt32 := 721

inductive NodeKind where
  | char
  | block
  deriving DecidableEq

def NodeKind.ifmt : NodeKind → UInt32
  | .char => sIfchr
  | .block => sIfblk

/-- An entry read out of an archive, with its full path. -/
inductive Entry where
  | dir (path : String) (mode : UInt32)
  | file (path : String) (mode : UInt32) (data : Bytes)
  | symlink (path target : String)
  | device (path : String) (mode : UInt32) (kind : NodeKind) (major minor : UInt32)
  deriving DecidableEq

def Entry.path : Entry → String
  | .dir path _ => path
  | .file path _ _ => path
  | .symlink path _ => path
  | .device path _ _ _ _ => path

/-! ## The tree -/

mutual

inductive Node where
  | dir (mode : UInt32) (entries : Dir)
  | file (mode : UInt32) (data : Bytes)
  | symlink (target : String)
  | device (mode ifmt major minor : UInt32)

/-- The map of a directory, in the order of its keys. -/
inductive Dir where
  | nil
  | cons (name : String) (node : Node) (rest : Dir)

end

def Dir.find (name : String) : Dir → Option Node
  | .nil => none
  | .cons other node rest => if name = other then some node else rest.find name

/-- Insert or replace. -/
def Dir.insert (name : String) (node : Node) : Dir → Dir
  | .nil => .cons name node .nil
  | .cons other otherNode rest =>
      if name = other then .cons name node rest
      else if name < other then .cons name node (.cons other otherNode rest)
      else .cons other otherNode (rest.insert name node)

def Dir.names : Dir → List String
  | .nil => []
  | .cons name _ rest => name :: rest.names

/-- The permission bits of a directory made along a path. -/
def defaultDirMode : UInt32 := 0o755

/-- Only permission bits. -/
def Permissions (mode : UInt32) : Prop := mode &&& 0o7777 = mode

instance (mode : UInt32) : Decidable (Permissions mode) :=
  inferInstanceAs (Decidable (mode &&& 0o7777 = mode))

theorem permissions_mask (mode : UInt32) : Permissions (mode &&& 0o7777) := by
  rw [Permissions, UInt32.and_assoc, UInt32.and_self]

/-- A component of a path. -/
def NameValid (name : String) : Prop := name ≠ "" ∧ '/' ∉ name.toList

mutual

/-- What the operations below can build. -/
def Node.Valid : Node → Prop
  | .dir mode entries => Permissions mode ∧ Dir.Valid entries
  | .file mode _ => Permissions mode
  | .symlink _ => True
  | .device mode ifmt _ _ => Permissions mode ∧ ∃ kind : NodeKind, ifmt = kind.ifmt

def Dir.Valid : Dir → Prop
  | .nil => True
  | .cons name node rest =>
      NameValid name ∧ node.Valid ∧ (∀ other ∈ rest.names, name < other) ∧ Dir.Valid rest

end

theorem mem_names_insert (name other : String) (node : Node) (dir : Dir) :
    other ∈ (dir.insert name node).names ↔ other = name ∨ other ∈ dir.names := by
  match dir with
  | .nil => simp [Dir.insert, Dir.names]
  | .cons first firstNode rest =>
      have later := mem_names_insert name other node rest
      rw [Dir.insert]
      by_cases same : name = first
      · rw [if_pos same, Dir.names, Dir.names, same]
        simp
      · rw [if_neg same]
        by_cases before : name < first
        · rw [if_pos before, Dir.names, List.mem_cons]
        · rw [if_neg before, Dir.names, Dir.names, List.mem_cons, List.mem_cons, later]
          exact or_left_comm

theorem valid_insert (name : String) (node : Node) (dir : Dir) (good : NameValid name)
    (fine : node.Valid) (valid : dir.Valid) : (dir.insert name node).Valid := by
  match dir with
  | .nil => exact ⟨good, fine, fun _ none => absurd none List.not_mem_nil, trivial⟩
  | .cons first firstNode rest =>
      obtain ⟨firstGood, firstFine, sorted, restValid⟩ := valid
      rw [Dir.insert]
      by_cases same : name = first
      · rw [if_pos same, same]
        exact ⟨firstGood, fine, sorted, restValid⟩
      · rw [if_neg same]
        by_cases before : name < first
        · rw [if_pos before]
          refine ⟨good, fine, ?_, firstGood, firstFine, sorted, restValid⟩
          intro other member
          rcases List.mem_cons.mp member with rfl | later
          · exact before
          · exact before.trans (sorted other later)
        · rw [if_neg before]
          refine ⟨firstGood, firstFine, ?_, valid_insert name node rest good fine restValid⟩
          intro other member
          rcases (mem_names_insert name other node rest).mp member with rfl | later
          · exact lt_of_le_of_ne (not_lt.mp before) (Ne.symm same)
          · exact sorted other later

theorem valid_find (name : String) (dir : Dir) (node : Node) (valid : dir.Valid)
    (found : dir.find name = some node) : node.Valid := by
  match dir with
  | .nil => cases found
  | .cons first firstNode rest =>
      obtain ⟨_, firstFine, _, restValid⟩ := valid
      rw [Dir.find] at found
      by_cases same : name = first
      · rw [if_pos same] at found
        cases found
        exact firstFine
      · rw [if_neg same] at found
        exact valid_find name rest node restValid found

/-- A tree as its operations build it. The mode of the root is in no record. -/
structure Tree where
  root : Dir
  valid : root.Valid

def Tree.new : Tree := ⟨.nil, trivial⟩

/-- The non-empty parts of a path, none of them `.` or `..`. -/
def components (path : String) : Except String (List String) :=
  let parts := (path.toList.splitOn '/').filter (· ≠ [])
  if parts = [] ∨ ['.'] ∈ parts ∨ ['.', '.'] ∈ parts then .error "empty or non-relative path"
  else .ok (parts.map String.ofList)

/-- The walk of `dir_at` to the last directory of a path, making those that are missing, and
what is then done there. A path that fails does so before anything is made. -/
def Dir.within (act : Dir → Dir) : List String → Dir → Except String Dir
  | [], dir => .ok (act dir)
  | name :: path, dir =>
      match dir.find name with
      | none => do
          let sub ← Dir.within act path .nil
          .ok (dir.insert name (.dir defaultDirMode sub))
      | some (.dir mode entries) => do
          let sub ← Dir.within act path entries
          .ok (dir.insert name (.dir mode sub))
      | some _ => .error "path runs through a non-directory"

theorem not_mem_split_on (separator : Char) (chars : List Char) :
    ∀ part ∈ chars.splitOn separator, separator ∉ part := by
  induction chars with
  | nil =>
      intro part member
      rw [List.splitOn_nil, List.mem_singleton] at member
      rw [member]
      exact List.not_mem_nil
  | cons c chars ih =>
      rw [List.splitOn_cons_eq_if_modifyHead]
      by_cases ends : (c == separator) = true
      · rw [if_pos ends]
        intro part member
        rcases List.mem_cons.mp member with rfl | later
        · exact List.not_mem_nil
        · exact ih part later
      · rw [if_neg ends]
        cases parts : chars.splitOn separator with
        | nil => exact absurd parts (List.splitOn_ne_nil separator chars)
        | cons first rest =>
            rw [parts] at ih
            intro part member
            rcases List.mem_cons.mp member with rfl | later
            · intro inside
              rcases List.mem_cons.mp inside with same | inside
              · exact ends (beq_iff_eq.mpr same.symm)
              · exact ih first List.mem_cons_self inside
            · exact ih part (List.mem_cons_of_mem _ later)

theorem components_valid (path : String) (parts : List String)
    (split : components path = .ok parts) : ∀ name ∈ parts, NameValid name := by
  rw [components] at split
  split_ifs at split
  cases split
  intro name member
  obtain ⟨part, inside, rfl⟩ := List.mem_map.mp member
  obtain ⟨piece, some⟩ := List.mem_filter.mp inside
  constructor
  · intro empty
    exact of_decide_eq_true some (String.ofList_eq_empty_iff.mp empty)
  · rw [String.toList_ofList]
    exact not_mem_split_on '/' _ part piece

theorem valid_within (act : Dir → Dir) (kept : ∀ dir : Dir, dir.Valid → (act dir).Valid)
    (path : List String) (good : ∀ name ∈ path, NameValid name) (dir after : Dir)
    (valid : dir.Valid) (done : dir.within act path = .ok after) : after.Valid := by
  induction path generalizing dir after with
  | nil =>
      cases done
      exact kept dir valid
  | cons name path ih =>
      have first := good name List.mem_cons_self
      have later : ∀ other ∈ path, NameValid other :=
        fun other member => good other (List.mem_cons_of_mem name member)
      rw [Dir.within] at done
      cases found : dir.find name with
      | none =>
          rw [found] at done
          cases made : Dir.within act path .nil with
          | error _ =>
              rw [made] at done
              cases done
          | ok sub =>
              rw [made] at done
              cases done
              exact valid_insert name _ dir first ⟨by decide, ih later .nil sub trivial made⟩ valid
      | some node =>
          rw [found] at done
          have fine := valid_find name dir node valid found
          cases node with
          | dir mode entries =>
              obtain ⟨bits, inner⟩ := fine
              cases made : Dir.within act path entries with
              | error _ =>
                  simp only [made] at done
                  cases done
              | ok sub =>
                  simp only [made] at done
                  cases done
                  exact valid_insert name _ dir first ⟨bits, ih later entries sub inner made⟩ valid
          | file mode data => cases done
          | symlink target => cases done
          | device mode ifmt major minor => cases done

namespace Tree

/-- `dir_at`, and what is done in the directory it finds. -/
def within (tree : Tree) (act : Dir → Dir) (kept : ∀ dir : Dir, dir.Valid → (act dir).Valid)
    (path : List String) (good : ∀ name ∈ path, NameValid name) : Except String Tree :=
  match done : tree.root.within act path with
  | .error text => .error text
  | .ok root => .ok ⟨root, valid_within act kept path good tree.root root tree.valid done⟩

def mkdir (tree : Tree) (path : String) : Except String Tree :=
  match split : components path with
  | .error text => .error text
  | .ok parts => tree.within id (fun _ valid => valid) parts (components_valid path parts split)

/-- Place a leaf node, making the directories above it. -/
def put (tree : Tree) (path : String) (node : Node) (fine : node.Valid) : Except String Tree :=
  match split : components path with
  | .error text => .error text
  | .ok parts =>
      match last : parts.getLast? with
      | none => .ok tree
      | some name =>
          have good := components_valid path parts split
          tree.within (·.insert name node)
            (fun dir valid => valid_insert name node dir
              (good name (List.mem_of_getLast? last)) fine valid)
            parts.dropLast (fun other member => good other (List.mem_of_mem_dropLast member))

def insertFile (tree : Tree) (path : String) (data : Bytes) (mode : UInt32) : Except String Tree :=
  tree.put path (.file (mode &&& 0o7777) data) (permissions_mask mode)

def symlink (tree : Tree) (path target : String) : Except String Tree :=
  tree.put path (.symlink target) trivial

def device (tree : Tree) (path : String) (mode : UInt32) (kind : NodeKind) (major minor : UInt32) :
    Except String Tree :=
  tree.put path (.device (mode &&& 0o7777) kind.ifmt major minor)
    ⟨permissions_mask mode, kind, rfl⟩

end Tree

/-! ## The writer -/

/-- Eight digits, the field encoding. -/
def hex8 (value : UInt32) : Bytes := utf8 (String.ofList (upperHex 8 value.toNat))

def pushHex8 (out : Bytes) (value : UInt32) : Bytes := out ++ hex8 value

/-- Zeros up to the next multiple of four. -/
def pad4 (out : Bytes) : Bytes := out ++ List.replicate ((4 - out.length % 4) % 4) 0

/-- What the writer carries: the output and the next inode. -/
structure Output where
  out : Bytes
  ino : UInt32

/-- One record. Its fields are inode, mode, owner, group, links, time, file size, the device
it lies on, the device it is, name size and checksum. -/
def writeRecord (state : Output) (name : String) (mode nlink rdevmajor rdevminor : UInt32)
    (data : Bytes) : Output :=
  let namesize := UInt32.ofNat (utf8 name).length + 1
  let fields := [state.ino, mode, 0, 0, nlink, 0, UInt32.ofNat data.length, 0, 0, rdevmajor,
    rdevminor, namesize, 0]
  let out := fields.foldl pushHex8 (state.out ++ magic)
  let out := pad4 (out ++ utf8 name ++ [0])
  let out := pad4 (out ++ data)
  ⟨out, state.ino + 1⟩

def childPath (path name : String) : String := if path = "" then name else path ++ "/" ++ name

/-- The record of a directory itself; the root has none. -/
def writeOwn (state : Output) (path : String) (mode : UInt32) : Output :=
  if path = "" then state else writeRecord state path (sIfdir ||| mode) 2 0 0 []

mutual

def writeNode (state : Output) (path : String) : Node → Output
  | .dir mode entries => writeDir (writeOwn state path mode) path entries
  | .file mode data => writeRecord state path (sIfreg ||| mode) 1 0 0 data
  | .symlink target => writeRecord state path (sIflnk ||| 0o777) 1 0 0 (utf8 target)
  | .device mode ifmt major minor => writeRecord state path (ifmt ||| mode) 1 major minor []

/-- The loop over the entries of a directory. -/
def writeDir (state : Output) (path : String) : Dir → Output
  | .nil => state
  | .cons name node rest => writeDir (writeNode state (childPath path name) node) path rest

end

def write (tree : Tree) : Bytes :=
  (writeRecord (writeDir ⟨[], inoBase⟩ "" tree.root) trailer 0 1 0 0 []).out

/-! ## The reader -/

def align4 (n : Nat) : Nat := (n + 3) / 4 * 4

def parseHex8 (field : Bytes) : Except String UInt32 :=
  match fromUtf8 field with
  | none => .error "non-ascii field"
  | some text =>
      match parseHex text.toList with
      | none => .error "non-hex field"
      | some value => .ok (UInt32.ofNat value)

/-- What the loop of `read` has of one record before it looks at the name. -/
structure RawRecord where
  mode : UInt32
  rdevmajor : UInt32
  rdevminor : UInt32
  name : String
  data : Bytes
  next : Nat

/-- The field of a header at an index. -/
def field (bytes : Bytes) (pos i : Nat) : Except String UInt32 :=
  parseHex8 (slice bytes (pos + 6 + i * 8) 8)

def readRecord (bytes : Bytes) (pos : Nat) : Except String RawRecord :=
  if bytes.length < pos + headerLen then .error "truncated header"
  else if slice bytes pos 6 ≠ magic then .error "bad magic"
  else do
    let mode ← field bytes pos 1
    let filesize ← field bytes pos 6
    let rdevmajor ← field bytes pos 9
    let rdevminor ← field bytes pos 10
    let namesize ← field bytes pos 11
    let nameStart := pos + headerLen
    let nameEnd := nameStart + namesize.toNat
    if ¬(nameEnd ≤ bytes.length ∧ 1 ≤ namesize.toNat) then .error "truncated name"
    else
      match fromUtf8 (slice bytes nameStart (namesize.toNat - 1)) with
      | none => .error "non-utf8 name"
      | some name =>
          let dataStart := align4 nameEnd
          let dataEnd := dataStart + filesize.toNat
          if ¬dataEnd ≤ bytes.length then .error "truncated data"
          else .ok ⟨mode, rdevmajor, rdevminor, name, slice bytes dataStart filesize.toNat,
            align4 dataEnd⟩

def RawRecord.entry (record : RawRecord) : Except String Entry :=
  let kind := record.mode &&& sIfmt
  let mode := record.mode &&& 0o7777
  if kind = sIfdir then .ok (.dir record.name mode)
  else if kind = sIflnk then
    match fromUtf8 record.data with
    | none => .error "non-utf8 symlink target"
    | some target => .ok (.symlink record.name target)
  else if kind = sIfchr ∨ kind = sIfblk then
    .ok (.device record.name mode (if kind = sIfchr then .char else .block) record.rdevmajor
      record.rdevminor)
  else .ok (.file record.name mode record.data)

theorem le_align4 (n : Nat) : n ≤ align4 n := by
  rw [align4]
  omega

/-- A record that was read lies within the archive, and no field says more than it can. -/
theorem read_record_bounds {bytes : Bytes} {pos : Nat} {record : RawRecord}
    (read : readRecord bytes pos = .ok record) :
    pos < bytes.length ∧ pos < record.next ∧ (utf8 record.name).length < 2 ^ 32 - 1 ∧
      record.data.length < 2 ^ 32 := by
  rw [readRecord] at read
  split_ifs at read with room head
  obtain ⟨mode, _, read⟩ := of_bind_ok read
  obtain ⟨filesize, _, read⟩ := of_bind_ok read
  obtain ⟨rdevmajor, _, read⟩ := of_bind_ok read
  obtain ⟨rdevminor, _, read⟩ := of_bind_ok read
  obtain ⟨namesize, _, read⟩ := of_bind_ok read
  by_cases inside : pos + headerLen + namesize.toNat ≤ bytes.length ∧ 1 ≤ namesize.toNat
  · rw [if_neg (not_not.mpr inside)] at read
    cases text : fromUtf8 (slice bytes (pos + headerLen) (namesize.toNat - 1)) with
    | none =>
        rw [text] at read
        cases read
    | some path =>
        rw [text] at read
        simp only at read
        split_ifs at read with data
        cases read
        have wide : 0 < headerLen := by decide
        have nameLimit := namesize.toNat_lt
        have nameEnd := le_align4 (pos + headerLen + namesize.toNat)
        have dataEnd := le_align4 (align4 (pos + headerLen + namesize.toNat) + filesize.toNat)
        have name := utf8_of_from_utf8 text
        dsimp only
        refine ⟨by omega, by omega, ?_, ?_⟩
        · rw [name, slice, List.length_take]
          omega
        · exact Nat.lt_of_le_of_lt (List.length_take_le _ _) filesize.toNat_lt
  · rw [if_pos inside] at read
    cases read

/-- The loop of `read` from a position on. -/
def readFrom (bytes : Bytes) (pos : Nat) : Except String (List Entry) :=
  match _ : readRecord bytes pos with
  | .error text => .error text
  | .ok record =>
      if record.name = trailer then .ok []
      else do
        let entry ← record.entry
        let rest ← readFrom bytes record.next
        .ok (entry :: rest)
termination_by bytes.length - pos
decreasing_by
  have bounds := read_record_bounds ‹readRecord bytes pos = .ok record›
  omega

def read (bytes : Bytes) : Except String (List Entry) := readFrom bytes 0

/-- The inode of each record up to the trailer and with it, and where that ends. -/
def inodesFrom (bytes : Bytes) (pos : Nat) : Except String (List UInt32 × Nat) :=
  match _ : readRecord bytes pos with
  | .error text => .error text
  | .ok record => do
      let ino ← field bytes pos 0
      if record.name = trailer then .ok ([ino], record.next)
      else do
        let (rest, stop) ← inodesFrom bytes record.next
        .ok (ino :: rest, stop)
termination_by bytes.length - pos
decreasing_by
  have bounds := read_record_bounds ‹readRecord bytes pos = .ok record›
  omega

end HorizonOs.Keybuild.Cpio
