import HorizonOs.Keybuild.CpioRecords
import Mathlib.Algebra.BigOperators.Group.List.Basic

/-!
# A tree read back from its archive

The records of a tree are its nodes in the order of the listing. They read back where every
size fits its field and there are no more records than inodes; past that a size is cut
without a word, or an inode comes again.
-/

namespace HorizonOs.Keybuild.Cpio

open HorizonOs.Lib.ByteCodec HorizonOs.Lib.Text HorizonOs.Lib.Runs

set_option autoImplicit false

/-! ## Paths -/

/-- The path names make, as the writer joins them. -/
def pathOf (names : List String) : String := names.foldl childPath ""

theorem path_snoc (names : List String) (name : String) :
    pathOf (names ++ [name]) = childPath (pathOf names) name := by
  rw [pathOf, List.foldl_append]
  rfl

theorem child_path_ne (path name : String) (good : NameValid name) : childPath path name ≠ "" := by
  intro empty
  have chars := congrArg String.toList empty
  rw [childPath] at chars
  split_ifs at chars
  · exact good.1 (String.toList_inj.mp chars)
  · rw [String.toList_append, String.toList_append] at chars
    have last := (List.append_eq_nil_iff.mp chars).2
    exact good.1 (String.toList_inj.mp last)

/-- The parts of a path between its slashes are the names it was made of. -/
theorem path_parts (names : List String) (some : names ≠ [])
    (good : ∀ name ∈ names, NameValid name) :
    (pathOf names).toList.splitOn '/' = names.map String.toList := by
  induction names using List.reverseRecOn with
  | nil => exact absurd rfl some
  | append_singleton names name ih =>
      have single : name.toList.splitOn '/' = [name.toList] :=
        List.splitOn_eq_singleton (good name (List.mem_append_right _ List.mem_cons_self)).2
      have earlier : ∀ other ∈ names, NameValid other :=
        fun other member => good other (List.mem_append_left _ member)
      rw [path_snoc, childPath, List.map_append]
      cases names using List.reverseRecOn with
      | nil =>
          have root : pathOf [] = "" := rfl
          rw [if_pos root, single]
          rfl
      | append_singleton names other _ =>
          have given : pathOf (names ++ [other]) ≠ "" := by
            rw [path_snoc]
            exact child_path_ne _ other (earlier other (List.mem_append_right _ List.mem_cons_self))
          have slash : "/".toList = ['/'] := by decide
          rw [if_neg given, String.toList_append, String.toList_append, slash, List.append_assoc,
            List.singleton_append, List.splitOn_append_cons_self, single,
            ih (List.append_ne_nil_of_right_ne_nil _ (List.cons_ne_nil _ _)) earlier]
          rfl

theorem split_on_injective (separator : Char) (left right : List Char)
    (same : left.splitOn separator = right.splitOn separator) : left = right := by
  have joined := congrArg (fun parts => [separator].intercalate parts) same
  simp only [List.intercalate_splitOn] at joined
  exact joined

/-- Two lists of names with one path are one list. -/
theorem path_injective (left right : List String) (someLeft : left ≠ []) (someRight : right ≠ [])
    (goodLeft : ∀ name ∈ left, NameValid name) (goodRight : ∀ name ∈ right, NameValid name)
    (same : pathOf left = pathOf right) : left = right := by
  have parts := path_parts left someLeft goodLeft
  rw [same, path_parts right someRight goodRight] at parts
  exact (List.map_injective_iff.mpr fun _ _ => String.toList_inj.mp) parts.symm

/-- A path cut at a slash: the names are cut with it. -/
theorem path_cut (names : List String) (some : names ≠ []) (good : ∀ name ∈ names, NameValid name)
    (parent rest : String) (cut : pathOf names = parent ++ "/" ++ rest) :
    ∃ front back, names = front ++ back ∧ front ≠ [] ∧ back ≠ [] ∧ pathOf front = parent := by
  have parts := path_parts names some good
  have slash : "/".toList = ['/'] := by decide
  rw [cut, String.toList_append, String.toList_append, slash, List.append_assoc,
    List.singleton_append, List.splitOn_append_cons_self] at parts
  obtain ⟨front, back, rfl, left, right⟩ := List.map_eq_append_iff.mp parts.symm
  have someFront : front ≠ [] := fun none => by
    rw [none] at left
    exact List.splitOn_ne_nil '/' parent.toList left.symm
  have someBack : back ≠ [] := fun none => by
    rw [none] at right
    exact List.splitOn_ne_nil '/' rest.toList right.symm
  refine ⟨front, back, rfl, someFront, someBack, ?_⟩
  apply String.toList_inj.mp
  apply split_on_injective '/'
  rw [← left]
  exact path_parts front someFront fun name member => good name (List.mem_append_left _ member)

/-! ## Records and entries of a node -/

def Node.record (path : String) : Node → Record
  | .dir mode _ => ⟨path, sIfdir ||| mode, 2, 0, 0, []⟩
  | .file mode data => ⟨path, sIfreg ||| mode, 1, 0, 0, data⟩
  | .symlink target => ⟨path, sIflnk ||| 0o777, 1, 0, 0, utf8 target⟩
  | .device mode ifmt major minor => ⟨path, ifmt ||| mode, 1, major, minor, []⟩

/-- The entry a node should read back as. -/
def Node.entry (path : String) : Node → Entry
  | .dir mode _ => .dir path mode
  | .file mode data => .file path mode data
  | .symlink target => .symlink path target
  | .device mode ifmt major minor =>
      .device path mode (if ifmt = sIfchr then .char else .block) major minor

theorem record_path (path : String) (node : Node) : (node.record path).path = path := by
  cases node <;> rfl

theorem entry_path (path : String) (node : Node) : (node.entry path).path = path := by
  cases node <;> rfl

theorem and_or_split (a b c : UInt32) : (a ||| b) &&& c = (a &&& c) ||| (b &&& c) := by
  apply UInt32.toNat_inj.mp
  rw [UInt32.toNat_and, UInt32.toNat_or, UInt32.toNat_or, UInt32.toNat_and, UInt32.toNat_and,
    Nat.and_or_distrib_right]

/-- Type and permission bits come apart again. -/
theorem mode_bits (kind mode : UInt32) (permissions : Permissions mode)
    (type : kind &&& sIfmt = kind) (clear : kind &&& 0o7777 = 0) :
    (kind ||| mode) &&& sIfmt = kind ∧ (kind ||| mode) &&& 0o7777 = mode := by
  have apart : (0o7777 : UInt32) &&& sIfmt = 0 := by decide
  have none : mode &&& sIfmt = 0 := by
    rw [← permissions, UInt32.and_assoc, apart, UInt32.and_zero]
  rw [and_or_split, and_or_split, type, none, clear, permissions]
  exact ⟨UInt32.or_zero, UInt32.zero_or⟩

theorem record_shows (path : String) (node : Node) (valid : node.Valid) :
    (node.record path).Shows (node.entry path) := by
  intro next
  cases node with
  | dir mode entries =>
      obtain ⟨type, bits⟩ := mode_bits sIfdir mode valid.1 (by decide) (by decide)
      simp only [Node.record, RawRecord.entry, type, bits]
      rfl
  | file mode data =>
      obtain ⟨type, bits⟩ := mode_bits sIfreg mode valid (by decide) (by decide)
      simp only [Node.record, RawRecord.entry, type, bits]
      rfl
  | symlink target =>
      have type : (sIflnk ||| 0o777) &&& sIfmt = sIflnk := by decide
      simp only [Node.record, RawRecord.entry, type, from_utf8_utf8]
      rfl
  | device mode ifmt major minor =>
      obtain ⟨permissions, kind, rfl⟩ := valid
      cases kind with
      | char =>
          obtain ⟨type, bits⟩ := mode_bits sIfchr mode permissions (by decide) (by decide)
          simp only [Node.record, NodeKind.ifmt, RawRecord.entry, type, bits]
          rfl
      | block =>
          obtain ⟨type, bits⟩ := mode_bits sIfblk mode permissions (by decide) (by decide)
          simp only [Node.record, NodeKind.ifmt, RawRecord.entry, type, bits]
          rfl

/-! ## The records of a tree -/

def recordsOf (nodes : List (List String × Node)) : List Record :=
  nodes.map fun item => item.2.record (pathOf item.1)

def entriesOf (nodes : List (List String × Node)) : List Entry :=
  nodes.map fun item => item.2.entry (pathOf item.1)

/-- What is written of a node that is not a directory is its own record. -/
theorem records_single (state : Output) (here : List String) (node : Node) :
    (recordsOf [(here, node)]).foldl emit state = emit state (node.record (pathOf here)) := by
  rw [recordsOf, List.map_singleton, List.foldl_cons, List.foldl_nil]

theorem records_cons (state : Output) (here : List String) (node : Node)
    (rest : List (List String × Node)) :
    (recordsOf ((here, node) :: rest)).foldl emit state =
      (recordsOf rest).foldl emit (emit state (node.record (pathOf here))) := by
  rw [recordsOf, List.map_cons, List.foldl_cons, recordsOf]

mutual

/-- What is written under a node is its listing, record by record. -/
theorem write_node_records (here : List String) (some : pathOf here ≠ "") :
    ∀ (node : Node), node.Valid → ∀ state : Output,
      writeNode state (pathOf here) node = (recordsOf (node.listing here)).foldl emit state
  | .dir mode entries, valid, state => by
      rw [writeNode, writeOwn, if_neg some, write_dir_records here entries valid.2, Node.listing,
        records_cons, emit, Node.record]
  | .file mode data, _, state => by
      rw [writeNode, Node.listing, records_single, emit, Node.record]
  | .symlink target, _, state => by
      rw [writeNode, Node.listing, records_single, emit, Node.record]
  | .device mode ifmt major minor, _, state => by
      rw [writeNode, Node.listing, records_single, emit, Node.record]

theorem write_dir_records (above : List String) :
    ∀ (dir : Dir), dir.Valid → ∀ state : Output,
      writeDir state (pathOf above) dir = (recordsOf (dir.listing above)).foldl emit state
  | .nil, _, _ => by
      rw [writeDir]
      rfl
  | .cons name node rest, valid, state => by
      obtain ⟨good, fine, _, restValid⟩ := valid
      have path := path_snoc above name
      have given : pathOf (above ++ [name]) ≠ "" := by
        rw [path]
        exact child_path_ne _ name good
      rw [writeDir, ← path, write_node_records (above ++ [name]) given node fine,
        write_dir_records above rest restValid, Dir.listing, recordsOf, recordsOf, recordsOf,
        List.map_append, List.foldl_append]

end

/-- The nodes of a tree with the names that lead to them. -/
def Tree.nodes (tree : Tree) : List (List String × Node) := tree.root.listing []

theorem mem_nodes (tree : Tree) (names : List String) (node : Node) :
    (names, node) ∈ tree.nodes ↔ tree.root.lookup names = some node := by
  rw [Tree.nodes, mem_listing [] names node tree.root tree.valid]
  constructor
  · rintro ⟨below, rfl, found⟩
    exact found
  · exact fun found => ⟨names, rfl, found⟩

theorem write_eq (tree : Tree) :
    write tree = archive inoBase (recordsOf tree.nodes ++ [trailerRecord]) := by
  have records := write_dir_records [] tree.root tree.valid ⟨[], inoBase⟩
  have all := emit_all (recordsOf tree.nodes ++ [trailerRecord]) ⟨[], inoBase⟩ rfl
  rw [List.foldl_append, List.foldl_cons, List.foldl_nil, List.nil_append] at all
  rw [write]
  exact (congrArg (fun state => (emit state trailerRecord).out) records).trans all

theorem names_valid (dir : Dir) (valid : dir.Valid) : ∀ name ∈ dir.names, NameValid name := by
  induction dir using Dir.names.induct with
  | case1 => exact fun _ member => absurd member List.not_mem_nil
  | case2 name node rest ih =>
      obtain ⟨good, _, _, restValid⟩ := valid
      intro other member
      rcases List.mem_cons.mp member with rfl | later
      · exact good
      · exact ih restValid other later

theorem child_valid (dir : Dir) (valid : dir.Valid) (name : String) (node : Node)
    (found : dir.find name = some node) : NameValid name ∧ node.Valid :=
  ⟨names_valid dir valid name (find_names name dir node found), valid_find name dir node valid found⟩

theorem reached_valid (names : List String) (node found : Node) (valid : node.Valid)
    (reached : node.lookup names = some found) :
    found.Valid ∧ ∀ name ∈ names, NameValid name := by
  induction names generalizing node with
  | nil =>
      cases reached
      exact ⟨valid, fun _ member => absurd member List.not_mem_nil⟩
  | cons name names ih =>
      cases node with
      | dir mode entries =>
          rw [Node.lookup, Option.bind_eq_some_iff] at reached
          obtain ⟨child, here, below⟩ := reached
          obtain ⟨good, fine⟩ := child_valid entries valid.2 name child here
          obtain ⟨foundValid, more⟩ := ih child fine below
          exact ⟨foundValid, List.forall_mem_cons.mpr ⟨good, more⟩⟩
      | file _ _ => cases reached
      | symlink _ => cases reached
      | device _ _ _ _ => cases reached

/-- A node of a tree is valid, and so are the names that lead to it. -/
theorem node_valid (tree : Tree) (names : List String) (node : Node)
    (found : tree.root.lookup names = some node) :
    node.Valid ∧ names ≠ [] ∧ ∀ name ∈ names, NameValid name := by
  cases names with
  | nil => cases found
  | cons name names =>
      rw [Dir.lookup, Option.bind_eq_some_iff] at found
      obtain ⟨child, here, below⟩ := found
      obtain ⟨good, fine⟩ := child_valid tree.root tree.valid name child here
      obtain ⟨foundValid, more⟩ := reached_valid names child node fine below
      exact ⟨foundValid, List.cons_ne_nil _ _, List.forall_mem_cons.mpr ⟨good, more⟩⟩

/-! ## The round trip -/

/-- What a reader should have of a tree: every node once and no other, a directory before
all it holds, no inode twice, whole words, and the trailer at the end. -/
structure RoundTrips (tree : Tree) (entries : List Entry) : Prop where
  reads : read (write tree) = .ok entries
  nodes : ∀ entry, entry ∈ entries ↔
    ∃ names node, tree.root.lookup names = some node ∧ entry = node.entry (pathOf names)
  once : (entries.map Entry.path).Nodup
  ordered : ∀ before entry after, entries = before ++ entry :: after →
    ∀ parent rest, entry.path = parent ++ "/" ++ rest → ∃ mode, Entry.dir parent mode ∈ before
  inodes : ∃ inos, inodesFrom (write tree) 0 = .ok (inos, (write tree).length) ∧ inos.Nodup ∧
    inos.length = entries.length + 1
  whole : (write tree).length % 4 = 0

/-- A tree the format can carry: paths and targets whose sizes fit a field, and no more
records than inodes. -/
structure Carried (tree : Tree) : Prop where
  paths : ∀ names node, tree.root.lookup names = some node →
    (utf8 (pathOf names)).length < 2 ^ 32 - 1
  targets : ∀ names target, tree.root.lookup names = some (.symlink target) →
    (utf8 target).length < 2 ^ 32
  count : tree.root.count < 2 ^ 32

/-- The name of the trailer is not taken, and no file is 4 GiB or more. -/
structure Fitting (tree : Tree) : Prop where
  trailer : trailer ∉ tree.root.names
  files : ∀ names mode data, tree.root.lookup names = some (.file mode data) → data.length < 2 ^ 32

section Tree

variable (tree : Tree)

theorem entries_nodes (entry : Entry) :
    entry ∈ entriesOf tree.nodes ↔
      ∃ names node, tree.root.lookup names = some node ∧ entry = node.entry (pathOf names) := by
  rw [entriesOf, List.mem_map]
  constructor
  · rintro ⟨⟨names, node⟩, member, rfl⟩
    exact ⟨names, node, (mem_nodes tree names node).mp member, rfl⟩
  · rintro ⟨names, node, found, rfl⟩
    exact ⟨(names, node), (mem_nodes tree names node).mpr found, rfl⟩

theorem entries_once : ((entriesOf tree.nodes).map Entry.path).Nodup := by
  have paths : (entriesOf tree.nodes).map Entry.path = (tree.nodes.map Prod.fst).map pathOf := by
    rw [entriesOf, List.map_map, List.map_map]
    exact List.map_congr_left fun item _ => entry_path _ _
  rw [paths]
  apply List.Nodup.map_on
  · intro left inLeft right inRight same
    obtain ⟨⟨_, leftNode⟩, leftMember, rfl⟩ := List.mem_map.mp inLeft
    obtain ⟨⟨_, rightNode⟩, rightMember, rfl⟩ := List.mem_map.mp inRight
    obtain ⟨_, someLeft, goodLeft⟩ := node_valid tree _ _ ((mem_nodes tree _ _).mp leftMember)
    obtain ⟨_, someRight, goodRight⟩ := node_valid tree _ _ ((mem_nodes tree _ _).mp rightMember)
    exact path_injective _ _ someLeft someRight goodLeft goodRight same
  · exact listing_nodup [] tree.root tree.valid

theorem entries_ordered (before : List Entry) (entry : Entry) (after : List Entry)
    (split : entriesOf tree.nodes = before ++ entry :: after) (parent rest : String)
    (cut : entry.path = parent ++ "/" ++ rest) : ∃ mode, Entry.dir parent mode ∈ before := by
  obtain ⟨front, back, nodes, rfl, later⟩ := List.map_eq_append_iff.mp split
  obtain ⟨⟨names, node⟩, back, rfl, rfl, rfl⟩ := List.map_eq_cons_iff.mp later
  have member : (names, node) ∈ tree.nodes := by
    rw [nodes]
    exact List.mem_append_right _ List.mem_cons_self
  obtain ⟨_, some, good⟩ := node_valid tree names node ((mem_nodes tree names node).mp member)
  rw [entry_path] at cut
  obtain ⟨upper, lower, shape, someUpper, someLower, same⟩ := path_cut names some good parent rest cut
  obtain ⟨mode, entries, found⟩ := listing_ordered [] tree.root tree.valid front names node back
    nodes upper lower shape someUpper someLower
  refine ⟨mode, List.mem_map.mpr ⟨_, found, ?_⟩⟩
  rw [List.nil_append, same]
  rfl

theorem trailer_free (fitting : Fitting tree) (names : List String) (node : Node)
    (found : tree.root.lookup names = some node) : pathOf names ≠ trailer := by
  intro same
  obtain ⟨_, some, good⟩ := node_valid tree names node found
  have parts := path_parts names some good
  have whole : trailer.toList.splitOn '/' = [trailer.toList] :=
    List.splitOn_eq_singleton (by decide)
  rw [same, whole] at parts
  obtain ⟨name, more, rfl, first, none⟩ := List.map_eq_cons_iff.mp parts.symm
  rw [List.map_eq_nil_iff] at none
  rw [String.toList_inj.mp first, none, Dir.lookup, Option.bind_eq_some_iff] at found
  obtain ⟨child, here, _⟩ := found
  exact fitting.trailer (find_names trailer tree.root child here)

theorem records_fit (fitting : Fitting tree)
    (paths : ∀ names node, tree.root.lookup names = some node →
      (utf8 (pathOf names)).length < 2 ^ 32 - 1)
    (targets : ∀ names target, tree.root.lookup names = some (.symlink target) →
      (utf8 target).length < 2 ^ 32) :
    ∀ record ∈ recordsOf tree.nodes, record.Fits ∧ record.path ≠ trailer := by
  intro record member
  obtain ⟨⟨names, node⟩, inside, rfl⟩ := List.mem_map.mp member
  have found := (mem_nodes tree names node).mp inside
  rw [record_path]
  refine ⟨⟨?_, ?_⟩, trailer_free tree fitting names node found⟩
  · rw [record_path]
    exact paths names node found
  · cases node with
    | dir mode entries => exact Nat.two_pow_pos 32
    | file mode data => exact fitting.files names mode data found
    | symlink target => exact targets names target found
    | device mode ifmt major minor => exact Nat.two_pow_pos 32

theorem entries_shown : List.Forall₂ Record.Shows (recordsOf tree.nodes) (entriesOf tree.nodes) := by
  have each : ∀ item ∈ tree.nodes,
      (item.2.record (pathOf item.1)).Shows (item.2.entry (pathOf item.1)) := by
    rintro ⟨names, node⟩ inside
    exact record_shows _ _ (node_valid tree names node ((mem_nodes tree names node).mp inside)).1
  rw [recordsOf, entriesOf, List.forall₂_map_left_iff, List.forall₂_map_right_iff,
    List.forall₂_same]
  exact each

end Tree

/-! ## What the reader can say -/

theorem read_from_cases {bytes : Bytes} {pos : Nat} {entries : List Entry}
    (read : readFrom bytes pos = .ok entries) :
    entries = [] ∨ ∃ record entry rest, readRecord bytes pos = .ok record ∧
      record.entry = .ok entry ∧ readFrom bytes record.next = .ok rest ∧
      entries = entry :: rest := by
  cases found : readRecord bytes pos with
  | error text =>
      rw [readFrom] at read
      split at read
      · cases read
      · next other same =>
          rw [found] at same
          cases same
  | ok record =>
      rw [read_from_ok found] at read
      split_ifs at read
      · exact Or.inl (Except.ok.inj read).symm
      · obtain ⟨entry, shown, read⟩ := of_bind_ok read
        obtain ⟨rest, later, read⟩ := of_bind_ok read
        exact Or.inr ⟨record, entry, rest, rfl, shown, later, (Except.ok.inj read).symm⟩

theorem entry_range {record : RawRecord} {entry : Entry} (shown : record.entry = .ok entry) :
    entry.path = record.name ∧
      ∀ path target, entry = .symlink path target → utf8 target = record.data := by
  rw [RawRecord.entry] at shown
  split_ifs at shown
  · cases shown
    exact ⟨rfl, fun _ _ other => by cases other⟩
  · cases text : fromUtf8 record.data with
    | none =>
        rw [text] at shown
        cases shown
    | some target =>
        rw [text] at shown
        cases shown
        refine ⟨rfl, fun _ other same => ?_⟩
        cases same
        exact utf8_of_from_utf8 text
  · cases shown
    exact ⟨rfl, fun _ _ other => by cases other⟩
  · cases shown
    exact ⟨rfl, fun _ _ other => by cases other⟩
  · cases shown
    exact ⟨rfl, fun _ _ other => by cases other⟩

/-- No path and no target is longer than its field. -/
theorem read_range (bytes : Bytes) (left : Nat) : ∀ (pos : Nat) (entries : List Entry),
    bytes.length - pos ≤ left → readFrom bytes pos = .ok entries → ∀ entry ∈ entries,
      (utf8 entry.path).length < 2 ^ 32 - 1 ∧
        ∀ path target, entry = .symlink path target → (utf8 target).length < 2 ^ 32 := by
  induction left with
  | zero =>
      intro pos entries empty read entry member
      rcases read_from_cases read with rfl | ⟨record, _, _, found, _⟩
      · cases member
      · have bounds := read_record_bounds found
        omega
  | succ left ih =>
      intro pos entries more read entry member
      rcases read_from_cases read with rfl | ⟨record, first, rest, found, shown, later, rfl⟩
      · cases member
      · obtain ⟨inside, further, short, small⟩ := read_record_bounds found
        rcases List.mem_cons.mp member with rfl | member
        · obtain ⟨path, target⟩ := entry_range shown
          rw [path]
          refine ⟨short, fun name text same => ?_⟩
          rw [target name text same]
          exact small
        · exact ih record.next rest (by omega) later entry member

/-! ## Inodes -/

theorem inodes_range (ino : UInt32) (count : Nat) :
    inodesOf ino count = (List.range count).map fun i => ino + UInt32.ofNat i := by
  induction count generalizing ino with
  | zero => rfl
  | succ count ih =>
      have zero : ino + UInt32.ofNat 0 = ino := UInt32.add_zero ino
      rw [inodesOf, ih, List.range_succ_eq_map, List.map_cons, List.map_map, zero]
      apply congrArg (List.cons ino)
      apply List.map_congr_left
      intro i _
      rw [Function.comp_apply, Nat.succ_eq_add_one, UInt32.ofNat_add, UInt32.add_assoc,
        UInt32.add_comm 1]
      rfl

theorem length_inodes (ino : UInt32) (count : Nat) : (inodesOf ino count).length = count := by
  rw [inodes_range, List.length_map, List.length_range]

/-- Inodes come again after all of them. -/
theorem inodes_nodup_iff (ino : UInt32) (count : Nat) :
    (inodesOf ino count).Nodup ↔ count ≤ 2 ^ 32 := by
  constructor
  · intro distinct
    let number : UInt32 → Fin (2 ^ 32) := fun value => ⟨value.toNat, value.toNat_lt⟩
    have injective : Function.Injective number :=
      fun _ _ same => UInt32.toNat_inj.mp (Fin.val_eq_of_eq same)
    have numbers := (List.Nodup.map injective distinct).length_le_card
    rwa [List.length_map, Fintype.card_fin, length_inodes] at numbers
  · intro few
    rw [inodes_range]
    apply List.Nodup.map_on _ List.nodup_range
    intro i inside j inside' same
    rw [List.mem_range] at inside inside'
    have values := congrArg UInt32.toNat (UInt32.add_right_inj ino |>.mp same)
    rw [UInt32.toNat_ofNat', UInt32.toNat_ofNat', Nat.mod_eq_of_lt (by omega),
      Nat.mod_eq_of_lt (by omega)] at values
    exact values

/-! ## When a tree reads back -/

theorem archive_whole (ino : UInt32) (records : List Record) :
    (archive ino records).length % 4 = 0 := by
  induction records generalizing ino with
  | nil => rfl
  | cons record records ih =>
      have first := record_aligned [] ino record rfl
      have rest := ih (ino + 1)
      rw [List.nil_append] at first
      rw [archive, List.length_append]
      omega

section Exact

variable (tree : Tree) (fitting : Fitting tree)

include fitting

theorem carried_reads
    (paths : ∀ names node, tree.root.lookup names = some node →
      (utf8 (pathOf names)).length < 2 ^ 32 - 1)
    (targets : ∀ names target, tree.root.lookup names = some (.symlink target) →
      (utf8 target).length < 2 ^ 32) :
    read (write tree) = .ok (entriesOf tree.nodes) ∧
      inodesFrom (write tree) 0 =
        .ok (inodesOf inoBase (tree.root.count + 1), (write tree).length) := by
  have fits := records_fit tree fitting paths targets
  have entries := read_archive (entries_shown tree) fits [] inoBase rfl
  have inodes := inodes_archive (recordsOf tree.nodes) fits [] inoBase rfl
  have count : (recordsOf tree.nodes).length = tree.root.count := by
    rw [recordsOf, List.length_map, Tree.nodes, length_listing]
  rw [List.nil_append, ← write_eq, List.length_nil] at entries inodes
  rw [count] at inodes
  exact ⟨entries, inodes⟩

theorem round_trips_of_carried (carried : Carried tree) :
    RoundTrips tree (entriesOf tree.nodes) := by
  obtain ⟨reads, inodes⟩ := carried_reads tree fitting carried.paths carried.targets
  constructor
  · exact reads
  · exact entries_nodes tree
  · exact entries_once tree
  · exact entries_ordered tree
  · refine ⟨_, inodes, (inodes_nodup_iff _ _).mpr carried.count, ?_⟩
    rw [length_inodes, entriesOf, List.length_map, Tree.nodes, length_listing]
  · rw [write_eq]
    exact archive_whole _ _

theorem carried_of_round_trips (entries : List Entry) (trips : RoundTrips tree entries) :
    Carried tree := by
  have range := read_range (write tree) (write tree).length 0 entries (Nat.sub_le _ _) trips.reads
  have paths : ∀ names node, tree.root.lookup names = some node →
      (utf8 (pathOf names)).length < 2 ^ 32 - 1 := by
    intro names node found
    have short := (range _ ((trips.nodes _).mpr ⟨names, node, found, rfl⟩)).1
    rwa [entry_path] at short
  have targets : ∀ names target, tree.root.lookup names = some (.symlink target) →
      (utf8 target).length < 2 ^ 32 := by
    intro names target found
    exact (range _ ((trips.nodes _).mpr ⟨names, _, found, rfl⟩)).2 _ target rfl
  obtain ⟨_, inodes⟩ := carried_reads tree fitting paths targets
  obtain ⟨inos, walked, distinct, _⟩ := trips.inodes
  rw [inodes] at walked
  cases walked
  exact ⟨paths, targets, (inodes_nodup_iff _ _).mp distinct⟩

/-- A tree reads back from its archive exactly if the format can carry it. -/
theorem archive_round_trips : (∃ entries, RoundTrips tree entries) ↔ Carried tree := by
  constructor
  · rintro ⟨entries, trips⟩
    exact carried_of_round_trips tree fitting entries trips
  · exact fun carried => ⟨_, round_trips_of_carried tree fitting carried⟩

end Exact

/-- A console, an init and a link, as an initramfs has them. -/
def sampleTree : Tree :=
  ⟨.cons "dev" (.dir defaultDirMode (.cons "console" (.device 0o600 sIfchr 5 1) .nil))
    (.cons "init" (.file 0o755 [0x7f, 0x45, 0x4c]) (.cons "sbin" (.symlink "usr/sbin") .nil)), by
    have mode : Permissions 0o755 := by decide
    refine ⟨⟨by decide, by decide⟩, ⟨mode, ⟨by decide, by decide⟩, ⟨by decide, .char, rfl⟩, ?_,
      trivial⟩, ?_, ⟨by decide, by decide⟩, mode, ?_, ⟨by decide, by decide⟩, trivial, ?_,
      trivial⟩ <;> decide⟩

theorem sample_nodes (names : List String) (node : Node)
    (found : sampleTree.root.lookup names = some node) :
    (utf8 (pathOf names)).length < 2 ^ 32 - 1 ∧
      (∀ target, node = .symlink target → target = "usr/sbin") ∧
      ∀ mode data, node = .file mode data → data.length = 3 := by
  have listed := (mem_nodes sampleTree names node).mpr found
  have paths : ∀ item ∈ sampleTree.nodes.map Prod.fst,
      (utf8 (pathOf item)).length < 2 ^ 32 - 1 := by decide
  refine ⟨paths names (List.mem_map_of_mem listed), ?_⟩
  change (names, node) ∈ [(["dev"], _), (["dev", "console"], _), (["init"], _), (["sbin"], _)]
    at listed
  simp only [List.mem_cons, List.not_mem_nil, or_false, Prod.mk.injEq] at listed
  rcases listed with ⟨_, rfl⟩ | ⟨_, rfl⟩ | ⟨_, rfl⟩ | ⟨_, rfl⟩
  · exact ⟨fun _ other => (by cases other), fun _ _ other => (by cases other)⟩
  · exact ⟨fun _ other => (by cases other), fun _ _ other => (by cases other)⟩
  · refine ⟨fun _ other => (by cases other), fun _ _ same => ?_⟩
    cases same
    rfl
  · refine ⟨fun _ same => ?_, fun _ _ other => (by cases other)⟩
    cases same
    rfl

theorem sample_round_trips : ∃ entries, RoundTrips sampleTree entries := by
  apply (archive_round_trips sampleTree _).mpr
  · constructor
    · exact fun names node found => (sample_nodes names node found).1
    · intro names target found
      rw [(sample_nodes names _ found).2.1 target rfl]
      decide
    · decide
  · constructor
    · decide
    · intro names mode data found
      rw [(sample_nodes names _ found).2.2 mode data rfl]
      decide

/-! ## A target of 4 GiB -/

/-- Kept folded, so that no text of this length is ever built. -/
@[irreducible] def targetLength : Nat := 2 ^ 32

def longTarget : String := String.ofList (List.replicate targetLength 'a')

theorem length_long_target : (utf8 longTarget).length = targetLength := by
  rw [longTarget, utf8_length, List.map_replicate, List.sum_replicate]
  exact Nat.mul_one targetLength

theorem init_components : components "init" = .ok ["init"] := by
  rfl

/-- One symlink, at the root. -/
def linkTree (target : String) : Tree :=
  ⟨.cons "init" (.symlink target) .nil,
    ⟨by decide, by decide⟩, trivial, fun _ none => absurd none List.not_mem_nil, trivial⟩

theorem link_tree_built (target : String) :
    Tree.new.symlink "init" target = .ok (linkTree target) := by
  unfold Tree.symlink Tree.put
  split
  · next text failed =>
      rw [init_components] at failed
      cases failed
  · next parts split =>
      rw [init_components] at split
      cases split
      rfl

theorem link_lookup (target : String) (names : List String) (node : Node)
    (found : (linkTree target).root.lookup names = some node) : node = .symlink target := by
  have listed := (mem_nodes (linkTree target) names node).mpr found
  exact congrArg Prod.snd (List.mem_singleton.mp listed)

theorem long_target_lost :
    ∃ tree, Tree.new.symlink "init" longTarget = .ok tree ∧ Fitting tree ∧
      ¬∃ entries, RoundTrips tree entries := by
  have reached : (linkTree longTarget).root.lookup ["init"] = some (.symlink longTarget) := by
    rfl
  refine ⟨linkTree longTarget, link_tree_built longTarget, ?_, ?_⟩
  · constructor
    · exact fun taken => absurd (List.mem_singleton.mp taken) (by decide)
    · intro names mode data found
      cases link_lookup longTarget names _ found
  · rintro ⟨entries, trips⟩
    have small := ((read_range (write (linkTree longTarget)) _ 0 entries (Nat.sub_le _ _)
      trips.reads) _ ((trips.nodes _).mpr ⟨["init"], _, reached, rfl⟩)).2 _ longTarget rfl
    rw [length_long_target, targetLength] at small
    exact absurd small (Nat.lt_irrefl _)

end HorizonOs.Keybuild.Cpio
