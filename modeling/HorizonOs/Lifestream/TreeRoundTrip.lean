import HorizonOs.Lifestream.Trees

/-!
# Trees through the store

What a restore leaves below an empty directory is the tree that was snapshotted, less
its special files, exactly when every target of a symbolic link is UTF-8 and the counts
of the codec are wide enough: a snapshot stores a target as text, with a replacement
character for what is none.
-/

namespace HorizonOs.Lifestream

open HorizonOs.Lib.ByteCodec HorizonOs.Lib.Text HorizonOs.Lib.Runs

set_option autoImplicit false

/-! ## Trees as a part of the file system -/

mutual

/-- What stands at a path from a node on. -/
def HostNode.at : HostNode → List Name → Option Inode
  | .file perm data, [] => some (.file perm data)
  | .symlink target, [] => some (.symlink target)
  | .special, [] => some .special
  | .dir perm _, [] => some (.dir perm)
  | .dir _ entries, name :: rest => treeAt entries name rest
  | .file _ _, _ :: _ => none
  | .symlink _, _ :: _ => none
  | .special, _ :: _ => none

def treeAt : List (Name × HostNode) → Name → List Name → Option Inode
  | [], _, _ => none
  | (fileName, node) :: more, name, rest =>
      if fileName = name then node.at rest else treeAt more name rest

end

/-- `after` has the tree laid below a directory of `fs`, and is the same elsewhere. -/
structure Lays (fs after : HostFs) (dest : HostPath) (tree : HostTree) : Prop where
  below : ∀ name rest,
    after (dest ++ name :: rest) = (treeAt tree name rest).or (fs (dest ++ name :: rest))
  elsewhere : ∀ place, (∀ name rest, place ≠ dest ++ name :: rest) → after place = fs place

/-- Nothing is below the directory under any of these names. -/
def Vacant (fs : HostFs) (dest : HostPath) (names : List Name) : Prop :=
  ∀ name ∈ names, ∀ rest, fs (dest ++ name :: rest) = none

/-- The names a directory lists. -/
def HostTree.names (tree : HostTree) : List Name := tree.map Prod.fst

theorem tree_at_absent : ∀ (tree : HostTree) (name : Name), name ∉ tree.names →
    ∀ rest, treeAt tree name rest = none
  | [], _, _, _ => rfl
  | (fileName, node) :: more, name, absent, rest => by
      rw [HostTree.names, List.map_cons, List.mem_cons, not_or] at absent
      rw [treeAt, if_neg (Ne.symm absent.1)]
      exact tree_at_absent more name absent.2 rest

theorem prefix_not_below {dest place : HostPath} (before : place <+: dest) (name : Name)
    (rest : List Name) : place ≠ dest ++ name :: rest := by
  intro same
  have short := before.length_le
  rw [same, List.length_append, List.length_cons] at short
  omega

theorem Lays.directories {fs after : HostFs} {dest : HostPath} {tree : HostTree}
    (lays : Lays fs after dest tree) (dirs : Directories fs dest) : Directories after dest :=
  dirs.beneath fun place before => lays.elsewhere place (prefix_not_below before)

theorem lays_nothing (fs : HostFs) (dest : HostPath) : Lays fs fs dest [] :=
  ⟨fun _ _ => rfl, fun _ _ => rfl⟩

/-- One child laid, and then the others. -/
theorem Lays.cons {fs middle after : HostFs} {dest : HostPath} {name : Name} {node : HostNode}
    {more : HostTree} (one : Lays fs middle dest [(name, node)])
    (others : Lays middle after dest more) (distinct : name ∉ more.names) :
    Lays fs after dest ((name, node) :: more) where
  below other rest := by
    rw [others.below, one.below, treeAt, treeAt, treeAt]
    by_cases same : name = other
    · rw [if_pos same, if_pos same, ← same, tree_at_absent more name distinct, Option.none_or]
    · rw [if_neg same, if_neg same, Option.none_or]
  elsewhere place apart := (others.elsewhere place apart).trans (one.elsewhere place apart)

/-- A node with nothing below it. -/
theorem lays_leaf (fs : HostFs) (dest : HostPath) (name : Name) (node : HostNode) (inode : Inode)
    (here : node.at [] = some inode) (leaf : ∀ next rest, node.at (next :: rest) = none) :
    Lays fs (Function.update fs (dest ++ [name]) (some inode)) dest [(name, node)] where
  below other rest := by
    rw [treeAt, treeAt]
    by_cases same : name = other
    · subst same
      rw [if_pos rfl]
      cases rest with
      | nil => rw [here, Function.update_self, Option.some_or]
      | cons next rest =>
          rw [leaf, Option.none_or, Function.update_of_ne]
          simp
    · rw [if_neg same, Option.none_or, Function.update_of_ne]
      simp [Ne.symm same]
  elsewhere place apart := Function.update_of_ne (apart name []) _ _

/-- A directory made, its children laid below it, and its permissions set. -/
theorem lays_dir (fs inside : HostFs) (dest : HostPath) (name : Name) (first perm : Perm)
    (children : HostTree)
    (laid : Lays (Function.update fs (dest ++ [name]) (some (.dir first))) inside (dest ++ [name])
      children) :
    Lays fs (Function.update inside (dest ++ [name]) (some (.dir perm))) dest
      [(name, .dir perm children)] where
  below other rest := by
    rw [treeAt, treeAt]
    by_cases same : name = other
    · subst same
      rw [if_pos rfl]
      cases rest with
      | nil =>
          rw [Function.update_self]
          rfl
      | cons next rest =>
          have under := laid.below next rest
          have path : (dest ++ [name]) ++ next :: rest = dest ++ name :: next :: rest := by simp
          rw [path, Function.update_of_ne (by simp)] at under
          rw [Function.update_of_ne (by simp), under]
          rfl
    · have apart : dest ++ other :: rest ≠ dest ++ [name] := by simp [Ne.symm same]
      rw [if_neg same, Option.none_or, Function.update_of_ne apart, laid.elsewhere,
        Function.update_of_ne apart]
      intro next more
      simp [Ne.symm same]
  elsewhere place apart := by
    rw [Function.update_of_ne (apart name []), laid.elsewhere,
      Function.update_of_ne (apart name [])]
    intro next more
    have below := apart name (next :: more)
    rwa [List.append_assoc]

theorem Vacant.after_lays {fs after : HostFs} {dest : HostPath} {tree : HostTree}
    {names : List Name} (vacant : Vacant fs dest names) (lays : Lays fs after dest tree)
    (distinct : ∀ name ∈ names, name ∉ tree.names) : Vacant after dest names := by
  intro name member rest
  rw [lays.below, tree_at_absent tree name (distinct name member), Option.none_or]
  exact vacant name member rest

/-- Trees laid over the same files that come out the same stand at the same places. -/
theorem Lays.unique {fs after : HostFs} {dest : HostPath} {left right : HostTree}
    (first : Lays fs after dest left) (second : Lays fs after dest right)
    (vacant : ∀ name rest, fs (dest ++ name :: rest) = none) (name : Name) (rest : List Name) :
    treeAt left name rest = treeAt right name rest := by
  have same := (first.below name rest).symm.trans (second.below name rest)
  simpa only [vacant, Option.or_none] using same

/-! ## What comes back -/

/-- The chunks of a byte string that the count of its file object still says. -/
def keptBytes (data : Bytes) : Bytes :=
  (((split data).map (slice data)).take ((split data).length % 2 ^ 32)).flatten

mutual

/-- The node that a restore makes of a snapshot of this one. -/
def HostNode.kept : HostNode → Option HostNode
  | .file perm data => some (.file perm (keptBytes data))
  | .symlink target => some (.symlink (keptBytes (utf8 (fromUtf8Lossy target))))
  | .special => none
  | .dir perm entries =>
      some (.dir perm ((keptEntries entries).take ((keptEntries entries).length % 2 ^ 32)))

def keptEntries : List (Name × HostNode) → List (Name × HostNode)
  | [] => []
  | (fileName, node) :: rest => (node.kept.map (Prod.mk fileName)).toList ++ keptEntries rest

end

/-- The tree a restore makes of a snapshot: of more entries than 32 bits count, so many. -/
def HostTree.kept (tree : HostTree) : HostTree :=
  (keptEntries tree).take ((keptEntries tree).length % 2 ^ 32)

mutual

/-- The node without what a snapshot skips on purpose. -/
def HostNode.regular : HostNode → Option HostNode
  | .file perm data => some (.file perm data)
  | .symlink target => some (.symlink target)
  | .special => none
  | .dir perm entries => some (.dir perm (regularEntries entries))

def regularEntries : List (Name × HostNode) → List (Name × HostNode)
  | [] => []
  | (fileName, node) :: rest => (node.regular.map (Prod.mk fileName)).toList ++ regularEntries rest

end

/-- The tree without its special files. -/
def HostTree.regular (tree : HostTree) : HostTree := regularEntries tree

/-! ## Well-formed trees -/

/-- A name as a directory lists it: UTF-8, and far shorter than 64 KiB. -/
structure Listed (name : Name) : Prop where
  plain : Plain name
  text : (fromUtf8 name).isSome
  short : name.length < 2 ^ 16

mutual

/-- The kernel knows no empty target of a link, and none of more than a page. -/
def HostNode.Proper : HostNode → Prop
  | .file _ _ => True
  | .symlink target => target ≠ [] ∧ target.length < 2 ^ 40
  | .special => True
  | .dir _ entries => ProperEntries entries

/-- Proper names, no two the same. -/
def ProperEntries : List (Name × HostNode) → Prop
  | [] => True
  | (name, node) :: rest =>
      Listed name ∧ node.Proper ∧ name ∉ HostTree.names rest ∧ ProperEntries rest

end

def HostTree.Proper (tree : HostTree) : Prop := ProperEntries tree

mutual

def HostNode.depth : HostNode → Nat
  | .file _ _ => 0
  | .symlink _ => 0
  | .special => 0
  | .dir _ entries => treeDepth entries + 1

/-- How many directories are one in the other. -/
def treeDepth : List (Name × HostNode) → Nat
  | [] => 0
  | (_, node) :: rest => max node.depth (treeDepth rest)

end

/-! ## Links -/

theorem utf8_eq_nil {text : String} (empty : utf8 text = []) : text = "" := by
  apply utf8_injective
  rw [empty]
  rfl

theorem lossy_chars_nonempty (fuel : Nat) (byte : UInt8) (rest : Bytes) :
    lossyChars (fuel + 1) (byte :: rest) ≠ [] := by
  rw [lossyChars]
  cases leadingByte byte with
  | none => exact List.cons_ne_nil _ _
  | some leading =>
      obtain ⟨wanted, low, high⟩ := leading
      intro empty
      have first := (List.append_eq_nil_iff.mp empty).1
      cases decoded : fromUtf8 (byte :: rest.take (wellFormedTail wanted low high rest)) with
      | none =>
          rw [decoded] at first
          cases first
      | some text =>
          rw [decoded, Option.getD_some, String.toList_eq_nil_iff] at first
          have bytes := utf8_of_from_utf8 decoded
          rw [first] at bytes
          cases bytes

theorem lossy_nonempty (bytes : Bytes) (nonempty : bytes ≠ []) :
    utf8 (fromUtf8Lossy bytes) ≠ [] := by
  intro empty
  rw [fromUtf8Lossy] at empty
  cases decoded : fromUtf8 bytes with
  | some text =>
      rw [decoded] at empty
      exact nonempty ((utf8_of_from_utf8 decoded).symm.trans empty)
  | none =>
      rw [decoded] at empty
      have chars : lossyChars bytes.length bytes = [] := by
        have none := congrArg String.toList (utf8_eq_nil empty)
        rwa [String.toList_ofList] at none
      cases bytes with
      | nil => exact nonempty rfl
      | cons byte rest => exact lossy_chars_nonempty rest.length byte rest chars

theorem lossy_chars_length : ∀ (fuel : Nat) (bytes : Bytes),
    (utf8 (String.ofList (lossyChars fuel bytes))).length ≤ 3 * bytes.length
  | 0, bytes => Nat.zero_le _
  | fuel + 1, [] => Nat.zero_le _
  | fuel + 1, byte :: rest => by
      rw [lossyChars]
      cases leadingByte byte with
      | none =>
          have tail := lossy_chars_length fuel rest
          rw [utf8_length] at tail ⊢
          have mark : Char.utf8Size '\uFFFD' = 3 := by decide
          rw [List.map_cons, List.sum_cons, mark, List.length_cons]
          omega
      | some leading =>
          obtain ⟨wanted, low, high⟩ := leading
          simp only
          generalize wellFormedTail wanted low high rest = present
          have tail := lossy_chars_length fuel (rest.drop present)
          have head : (((fromUtf8 (byte :: rest.take present)).getD "\uFFFD").toList.map
              Char.utf8Size).sum ≤ 3 * (1 + min present rest.length) := by
            cases decoded : fromUtf8 (byte :: rest.take present) with
            | none =>
                have mark : ("\uFFFD".toList.map Char.utf8Size).sum = 3 := by decide
                rw [Option.getD_none, mark]
                omega
            | some text =>
                have size := congrArg List.length (utf8_of_from_utf8 decoded)
                rw [← String.ofList_toList (s := text), utf8_length, List.length_cons,
                  List.length_take] at size
                rw [Option.getD_some, size]
                omega
          rw [utf8_length] at tail ⊢
          rw [List.map_append, List.sum_append, List.length_cons]
          rw [List.length_drop] at tail
          omega

theorem lossy_length (bytes : Bytes) : (utf8 (fromUtf8Lossy bytes)).length ≤ 3 * bytes.length := by
  rw [fromUtf8Lossy]
  cases decoded : fromUtf8 bytes with
  | some text =>
      rw [← utf8_of_from_utf8 decoded]
      simp only
      omega
  | none => exact lossy_chars_length bytes.length bytes

theorem kept_bytes_iff (data : Bytes) : keptBytes data = data ↔ (split data).length < 2 ^ 32 := by
  constructor
  · intro same
    have all := take_flatten_whole _ _ (slices_nonempty data) (same.trans (slices_split data).symm)
    rw [List.length_map] at all
    exact lt_of_le_of_lt all (Nat.mod_lt _ (by norm_num))
  · intro few
    rw [keptBytes, Nat.mod_eq_of_lt few, List.take_of_length_le (List.length_map _).le,
      slices_split]

/-- A target comes back as the text it was stored as. -/
theorem kept_target (target : Bytes) (short : target.length < 2 ^ 40) :
    keptBytes (utf8 (fromUtf8Lossy target)) = utf8 (fromUtf8Lossy target) := by
  have size := lossy_length target
  rw [kept_bytes_iff]
  exact split_count_fits _ (by omega)

theorem lossy_exact_iff (bytes : Bytes) :
    utf8 (fromUtf8Lossy bytes) = bytes ↔ (fromUtf8 bytes).isSome := by
  constructor
  · intro same
    rw [← same, from_utf8_utf8]
    rfl
  · intro text
    obtain ⟨decoded, found⟩ := Option.isSome_iff_exists.mp text
    rw [fromUtf8Lossy, found]
    exact utf8_of_from_utf8 found

/-! ## The objects of a tree -/

/-- A tree decodes to as many of its entries as its count has kept. -/
theorem decode_tree (entries : List TreeEntry)
    (short : ∀ entry ∈ entries, (utf8 entry.name).length < 2 ^ 16) :
    Object.decode (Object.tree entries).encode =
      .ok (.tree (entries.take (entries.length % 2 ^ 32))) := by
  set kept := entries.take (entries.length % 2 ^ 32) with keptDef
  have count : (UInt32.ofNat entries.length).toNat = kept.length := by
    rw [UInt32.toNat_ofNat', keptDef, List.length_take]
    exact (Nat.min_eq_left (Nat.mod_le _ _)).symm
  have items := decodes_many readEntry TreeEntry.encode kept
    fun entry member => decodes_entry entry (short entry (List.mem_of_mem_take member))
  have body := (decodes_u32 endOfObject (UInt32.ofNat entries.length)).bind
    (k := fun count => do
      let entries ← takeMany readEntry count.toNat
      pure (Object.tree entries))
    (by rw [count]; exact items.map Object.tree)
  have whole : (entries.map TreeEntry.encode).flatten = (kept.map TreeEntry.encode).flatten ++
      ((entries.drop (entries.length % 2 ^ 32)).map TreeEntry.encode).flatten := by
    rw [keptDef, ← List.flatten_append, ← List.map_append, List.take_append_drop]
  have read : readBody 3 (encodeU32 (UInt32.ofNat entries.length) ++
      (entries.map TreeEntry.encode).flatten) =
        .ok (.tree kept, ((entries.drop (entries.length % 2 ^ 32)).map TreeEntry.encode).flatten) := by
    rw [whole, ← List.append_assoc]
    exact body _
  have tagged : ∀ rest, readObject (3 :: rest) = readBody 3 rest := by
    intro rest
    change ((takeU8 endOfObject ([3] ++ rest)).bind fun pair => readBody pair.1 pair.2) = _
    rw [decodes_u8]
    rfl
  rw [Object.decode, Object.encode, tagged, read]
  rfl

/-- A name that is UTF-8 goes through its entry unharmed. -/
theorem Listed.decoded {name : Name} (listed : Listed name) :
    ∃ text, fromUtf8 name = some text ∧ utf8 text = name := by
  obtain ⟨text, decoded⟩ := Option.isSome_iff_exists.mp listed.text
  exact ⟨text, decoded, utf8_of_from_utf8 decoded⟩

theorem entry_name (ls : Lifestream) (name : String) (node : HostNode) (entry : TreeEntry)
    (made : node.entry ls name = some entry) : entry.name = name := by
  cases node <;> simp only [HostNode.entry, Option.some.injEq, reduceCtorEq] at made <;> rw [← made]

theorem tree_entries_short (ls : Lifestream) : ∀ tree : HostTree, tree.Proper →
    ∀ entry ∈ treeEntries ls tree, (utf8 entry.name).length < 2 ^ 16
  | [], _, entry, member => absurd member List.not_mem_nil
  | (name, node) :: rest, proper, entry, member => by
      obtain ⟨listed, _, _, others⟩ := proper
      rw [treeEntries, List.mem_append, Option.mem_toList] at member
      rcases member with made | later
      · obtain ⟨text, decoded, spelled⟩ := listed.decoded
        rw [entry_name ls _ node entry made, decoded, Option.getD_some, spelled]
        exact listed.short
      · exact tree_entries_short ls rest others entry later

theorem kept_is_some (ls : Lifestream) (name : String) (node : HostNode) :
    (node.entry ls name).isSome = node.kept.isSome := by
  cases node <;> rfl

/-- There are as many entries as nodes that get one. -/
theorem tree_entries_length (ls : Lifestream) : ∀ tree : HostTree,
    (treeEntries ls tree).length = (keptEntries tree).length
  | [] => rfl
  | (name, node) :: rest => by
      have same := kept_is_some ls ((fromUtf8 name).getD "") node
      rw [treeEntries, keptEntries, List.length_append, List.length_append,
        tree_entries_length ls rest, Option.length_toList, Option.length_toList]
      simp [same]

theorem read_bytes_kept (ls : Lifestream) (data : Bytes) (device : Device)
    (sound : Sound ls.store device) (free : CollisionFree ls.store device)
    (readable : device.Readable) (held : HoldsFile ls device data) :
    ls.readBytes device (ls.store.idOf (fileOf ls data).encode) = .ok (keptBytes data) := by
  have sizes : (chunkIds ls data).length = (split data).length := List.length_map _
  have got := get_decodes ls device (fileOf ls data) sound free readable held.1
  rw [fileOf, decode_file, sizes] at got
  rw [Lifestream.readBytes, fileOf, got]
  exact (read_chunks_holds ls device _ _ sound free
    (List.forall₂_take ((split data).length % 2 ^ 32) held.2)).of_readable readable

/-! ## Restoring -/

theorem host_bind {α β : Type} {first : HostM α} {next : α → HostM β} {fs middle : HostFs}
    {value : α} (ran : first fs = .ok value middle) : (first >>= next) fs = next value middle := by
  rw [bind_apply, ran]

section Restore

variable (ls : Lifestream) (device : Device) (defaults : Defaults)

theorem restore_file (fs : HostFs) (dest : HostPath) (dirs : Directories fs dest) (name : Name)
    (listed : Listed name) (vacant : fs (dest ++ [name]) = none) (text : String)
    (spelled : utf8 text = name) (perm : Perm) (data : Bytes) (id : ObjectId)
    (read : ls.readBytes device id = .ok data)
    (restore : ObjectId → HostPath → HostM Unit) :
    restoreEntry ls device defaults restore dest ⟨text, .file, id, fileMode perm⟩ fs =
      .ok () (Function.update fs (dest ++ [name]) (some (.file perm data))) := by
  set made := Function.update fs (dest ++ [name]) (some (.file defaults.file data)) with madeDef
  have got : fromStore (ls.readBytes device id) fs = .ok data fs := by rw [read]; rfl
  have wrote : hostCall (fun fs => writeFile defaults fs (dest ++ [name]) data) fs = .ok () made := by
    rw [hostCall, write_child defaults dirs listed.plain vacant]
  have still : Directories made dest := dirs.beneath fun place before =>
    Function.update_of_ne (prefix_not_below before name []) _ _
  have set : setMode (dest ++ [name]) (fileMode perm) made =
      .ok () (Function.update fs (dest ++ [name]) (some (.file perm data))) := by
    have here : made (dest ++ [name]) = some (.file defaults.file data) := Function.update_self ..
    rw [setMode, perm_of_file_mode, set_file_permissions still listed.plain here, madeDef]
    simp only [Function.update_idem]
  rw [restoreEntry, spelled, join_plain dest name listed.plain]
  exact (host_bind got).trans ((host_bind wrote).trans set)

theorem restore_symlink (fs : HostFs) (dest : HostPath) (dirs : Directories fs dest) (name : Name)
    (listed : Listed name) (vacant : fs (dest ++ [name]) = none) (text : String)
    (spelled : utf8 text = name) (target : Bytes) (nonempty : target ≠ []) (id : ObjectId)
    (read : ls.readBytes device id = .ok target) (mode : UInt32)
    (restore : ObjectId → HostPath → HostM Unit) :
    restoreEntry ls device defaults restore dest ⟨text, .symlink, id, mode⟩ fs =
      .ok () (Function.update fs (dest ++ [name]) (some (.symlink target))) := by
  have got : fromStore (ls.readBytes device id) fs = .ok target fs := by rw [read]; rfl
  rw [restoreEntry, spelled, join_plain dest name listed.plain]
  apply (host_bind got).trans
  rw [hostCall, symlink_child dirs listed.plain vacant, if_neg nonempty]

theorem restore_tree_steps {depth : Nat} {id : ObjectId} {path : HostPath}
    {entries : List TreeEntry} {fs made after : HostFs}
    (created : createDirAllOn defaults path fs = .ok () made)
    (got : ls.get device id = .ok (.tree entries))
    (restored : restoreEntries ls device defaults (ls.restoreTree device defaults depth) path entries
      made = .ok () after) :
    ls.restoreTree device defaults (depth + 1) id path fs = .ok () after := by
  have read : fromStore (ls.get device id) made = .ok (Object.tree entries) made := by rw [got]; rfl
  rw [Lifestream.restoreTree]
  exact (host_bind created).trans ((host_bind read).trans restored)

theorem kept_names : ∀ tree : HostTree,
    List.Sublist (HostTree.names (keptEntries tree)) tree.names
  | [] => .slnil
  | (name, node) :: rest => by
      have below := kept_names rest
      cases kept : node.kept with
      | none =>
          rw [keptEntries, kept]
          exact below.cons name
      | some node =>
          rw [keptEntries, kept]
          exact below.cons_cons name

variable (sound : Sound ls.store device) (free : CollisionFree ls.store device)
  (readable : device.Readable)

include sound free readable

theorem get_tree_kept (tree : HostTree) (proper : tree.Proper)
    (stored : Stored ls.store device (Object.tree (treeEntries ls tree)).encode) :
    ls.get device (ls.store.idOf (Object.tree (treeEntries ls tree)).encode) =
      .ok (.tree ((treeEntries ls tree).take ((keptEntries tree).length % 2 ^ 32))) := by
  rw [get_decodes ls device _ sound free readable stored,
    decode_tree _ (tree_entries_short ls tree proper), tree_entries_length]

mutual

theorem restore_node_lays : ∀ (node : HostNode) (depth : Nat) (fs : HostFs) (dest : HostPath)
    (name : Name) (text : String) (entry : TreeEntry), node.Proper → HoldsNode ls device node →
      node.depth ≤ depth → Directories fs dest → Listed name → utf8 text = name →
        Vacant fs dest [name] → node.entry ls text = some entry →
          ∃ after kept, node.kept = some kept ∧
            restoreEntry ls device defaults (ls.restoreTree device defaults depth) dest entry fs =
              .ok () after ∧
            Lays fs after dest [(name, kept)]
  | .file perm data, depth, fs, dest, name, text, entry, _, held, _, dirs, listed, spelled, vacant,
      made => by
      cases made
      have read := read_bytes_kept ls data device sound free readable held
      have ran := restore_file ls device defaults fs dest dirs name listed
        (vacant name List.mem_cons_self []) text spelled perm (keptBytes data) _ read
        (ls.restoreTree device defaults depth)
      exact ⟨_, _, rfl, ran, lays_leaf fs dest name (.file perm (keptBytes data)) _ rfl
        fun _ _ => rfl⟩
  | .symlink target, depth, fs, dest, name, text, entry, proper, held, _, dirs, listed, spelled,
      vacant, made => by
      cases made
      have read := read_bytes_kept ls _ device sound free readable held
      rw [kept_target target proper.2] at read
      have ran := restore_symlink ls device defaults fs dest dirs name listed
        (vacant name List.mem_cons_self []) text spelled _ (lossy_nonempty target proper.1) _ read
        linkMode (ls.restoreTree device defaults depth)
      have kept : (HostNode.symlink target).kept =
          some (.symlink (utf8 (fromUtf8Lossy target))) := by
        rw [HostNode.kept, kept_target target proper.2]
      exact ⟨_, _, kept, ran, lays_leaf fs dest name (.symlink (utf8 (fromUtf8Lossy target))) _ rfl
        fun _ _ => rfl⟩
  | .special, _, _, _, _, _, _, _, _, _, _, _, _, _, made => by cases made
  | .dir perm entries, depth, fs, dest, name, text, entry, proper, held, deep, dirs, listed,
      spelled, vacant, made => by
      cases made
      have absent : fs (dest ++ [name]) = none := vacant name List.mem_cons_self []
      have created : createDirAllOn defaults (dest ++ [name]) fs =
          .ok () (Function.update fs (dest ++ [name]) (some (.dir defaults.dir))) := by
        rw [createDirAllOn, create_child defaults dirs listed.plain absent]
      set fresh := Function.update fs (dest ++ [name]) (some (.dir defaults.dir)) with freshDef
      have still : Directories fresh dest := dirs.beneath fun place before =>
        Function.update_of_ne (prefix_not_below before name []) _ _
      have inner : Directories fresh (dest ++ [name]) :=
        @Directories.child fresh dest name still listed.plain defaults.dir (Function.update_self ..)
      have clear : Vacant fresh (dest ++ [name]) (HostTree.names entries) := by
        intro child _ rest
        have below := vacant name List.mem_cons_self (child :: rest)
        rw [freshDef, Function.update_of_ne (by simp)]
        rwa [List.append_assoc]
      cases depth with
      | zero => exact absurd deep (Nat.not_succ_le_zero _)
      | succ depth =>
          obtain ⟨inside, restored, laid⟩ := restore_entries_lays entries depth
            ((keptEntries entries).length % 2 ^ 32) fresh (dest ++ [name]) proper held.2
            (Nat.le_of_succ_le_succ deep) inner clear
          have ran := restore_tree_steps ls device defaults created
            (get_tree_kept ls device sound free readable entries proper held.1) restored
          have settled : Directories inside dest := still.beneath fun place before =>
            laid.elsewhere place fun next rest same => by
              have apart := prefix_not_below before name (next :: rest)
              rw [List.append_assoc] at same
              exact apart same
          have here : inside (dest ++ [name]) = some (.dir defaults.dir) := by
            rw [laid.elsewhere (dest ++ [name]) (by simp)]
            exact Function.update_self ..
          have moded : setMode (dest ++ [name]) (dirMode perm) inside =
              .ok () (Function.update inside (dest ++ [name]) (some (.dir perm))) := by
            rw [setMode, perm_of_dir_mode, set_dir_permissions settled listed.plain here]
          refine ⟨_, _, rfl, ?_, lays_dir fs inside dest name defaults.dir perm _ laid⟩
          rw [restoreEntry, spelled, join_plain dest name listed.plain]
          exact (host_bind ran).trans moded

theorem restore_entries_lays : ∀ (tree : List (Name × HostNode)) (depth count : Nat) (fs : HostFs)
    (dest : HostPath), ProperEntries tree → HoldsTree ls device tree → treeDepth tree ≤ depth →
      Directories fs dest → Vacant fs dest (HostTree.names tree) →
        ∃ after, restoreEntries ls device defaults (ls.restoreTree device defaults depth) dest
            ((treeEntries ls tree).take count) fs = .ok () after ∧
          Lays fs after dest ((keptEntries tree).take count)
  | [], _, count, fs, dest, _, _, _, _, _ => by
      rw [treeEntries, keptEntries, List.take_nil, List.take_nil]
      exact ⟨fs, rfl, lays_nothing fs dest⟩
  | (name, node) :: rest, depth, count, fs, dest, proper, held, deep, dirs, vacant => by
      obtain ⟨listed, nodeProper, distinct, others⟩ := proper
      obtain ⟨text, decoded, spelled⟩ := listed.decoded
      have nodeDeep := le_trans (le_max_left _ _) deep
      have restDeep := le_trans (le_max_right _ _) deep
      rw [treeEntries, keptEntries, decoded, Option.getD_some]
      cases made : node.entry ls text with
      | none =>
          have skipped : node.kept = none := by
            have same := kept_is_some ls text node
            rw [made] at same
            exact Option.not_isSome_iff_eq_none.mp (by rw [← same]; exact Bool.false_ne_true)
          rw [skipped]
          exact restore_entries_lays rest depth count fs dest others held.2 restDeep dirs
            fun other member => vacant other (List.mem_cons_of_mem name member)
      | some entry =>
          cases count with
          | zero => exact ⟨fs, rfl, lays_nothing fs dest⟩
          | succ count =>
              obtain ⟨middle, kept, isKept, ran, one⟩ := restore_node_lays node depth fs dest name
                text entry nodeProper held.1 nodeDeep dirs listed spelled
                (fun other member => vacant other (by
                  rw [List.mem_singleton.mp member]
                  exact List.mem_cons_self)) made
              have clear : Vacant middle dest (HostTree.names rest) :=
                Vacant.after_lays
                  (fun other member => vacant other (List.mem_cons_of_mem name member)) one
                  fun other member same => by
                    rw [List.mem_singleton.mp same] at member
                    exact distinct member
              obtain ⟨after, restored, more⟩ := restore_entries_lays rest depth count middle dest
                others held.2 restDeep (one.directories dirs) clear
              rw [isKept]
              have apart : name ∉ HostTree.names ((keptEntries rest).take count) := by
                intro again
                have listed := ((List.take_sublist count (keptEntries rest)).map Prod.fst).subset again
                exact distinct ((kept_names rest).subset listed)
              exact ⟨after, (host_bind ran).trans restored, one.cons more apart⟩

end

/-- A restore into an empty directory succeeds, and lays there what the store has kept. -/
theorem restore_lays (tree : HostTree) (proper : tree.Proper) (depth : Nat)
    (deep : treeDepth tree < depth) (held : HoldsTree ls device tree)
    (stored : Stored ls.store device (Object.tree (treeEntries ls tree)).encode) (fs : HostFs)
    (dest : HostPath) (dirs : Directories fs dest)
    (empty : ∀ name rest, fs (dest ++ name :: rest) = none) :
    ∃ after, ls.restoreTree device defaults depth
        (ls.store.idOf (Object.tree (treeEntries ls tree)).encode) dest fs = .ok () after ∧
      Lays fs after dest tree.kept := by
  cases depth with
  | zero => exact absurd deep (Nat.not_lt_zero _)
  | succ depth =>
      have created : createDirAllOn defaults dest fs = .ok () fs := by
        rw [createDirAllOn, create_existing defaults dirs]
      obtain ⟨after, restored, laid⟩ := restore_entries_lays ls device defaults sound free readable
        tree depth ((keptEntries tree).length % 2 ^ 32) fs dest proper held
        (Nat.le_of_lt_succ deep) dirs fun name _ rest => empty name rest
      exact ⟨after, restore_tree_steps ls device defaults created
        (get_tree_kept ls device sound free readable tree proper stored) restored, laid⟩

end Restore

/-! ## When that is the tree -/

mutual

/-- Nothing of the node is lost: targets are UTF-8 and the counts of the codec wide enough. -/
def HostNode.Faithful : HostNode → Prop
  | .file _ data => (split data).length < 2 ^ 32
  | .symlink target => (fromUtf8 target).isSome
  | .special => True
  | .dir _ entries => (regularEntries entries).length < 2 ^ 32 ∧ FaithfulEntries entries

def FaithfulEntries : List (Name × HostNode) → Prop
  | [] => True
  | (_, node) :: rest => node.Faithful ∧ FaithfulEntries rest

end

def HostTree.Faithful (tree : HostTree) : Prop :=
  (HostTree.regular tree).length < 2 ^ 32 ∧ FaithfulEntries tree

theorem regular_is_some (node : HostNode) : node.kept.isSome = node.regular.isSome := by
  cases node <;> rfl

theorem regular_length : ∀ tree : HostTree, (keptEntries tree).length = tree.regular.length
  | [] => rfl
  | (name, node) :: rest => by
      have same := regular_is_some node
      have below := regular_length rest
      rw [HostTree.regular] at below ⊢
      rw [keptEntries, regularEntries, List.length_append, List.length_append, below,
        Option.length_toList, Option.length_toList]
      simp [same]

theorem regular_names : ∀ tree : HostTree,
    HostTree.names (keptEntries tree) = HostTree.names tree.regular
  | [] => rfl
  | (name, node) :: rest => by
      have same := regular_is_some node
      have below := regular_names rest
      rw [HostTree.regular] at below ⊢
      rw [keptEntries, regularEntries]
      cases kept : node.kept with
      | none =>
          cases whole : node.regular with
          | none => exact below
          | some _ => rw [kept, whole] at same; cases same
      | some _ =>
          cases whole : node.regular with
          | none => rw [kept, whole] at same; cases same
          | some _ => exact congrArg (List.cons name) below

theorem kept_whole (tree : HostTree) (few : tree.regular.length < 2 ^ 32) :
    tree.kept = keptEntries tree := by
  rw [HostTree.kept, regular_length, Nat.mod_eq_of_lt few]
  exact List.take_of_length_le (regular_length tree).le

mutual

theorem kept_of_faithful : ∀ node : HostNode, node.Proper → node.Faithful → node.kept = node.regular
  | .file perm data, _, faithful => by
      rw [HostNode.kept, (kept_bytes_iff data).mpr faithful]
      rfl
  | .symlink target, proper, faithful => by
      rw [HostNode.kept, kept_target target proper.2, (lossy_exact_iff target).mpr faithful]
      rfl
  | .special, _, _ => rfl
  | .dir perm entries, proper, faithful => by
      have whole := kept_whole entries faithful.1
      rw [HostTree.kept] at whole
      rw [HostNode.kept, HostNode.regular, whole,
        kept_entries_of_faithful entries proper faithful.2]

theorem kept_entries_of_faithful : ∀ tree : List (Name × HostNode), ProperEntries tree →
    FaithfulEntries tree → keptEntries tree = regularEntries tree
  | [], _, _ => rfl
  | (name, node) :: rest, proper, faithful => by
      rw [keptEntries, regularEntries, kept_of_faithful node proper.2.1 faithful.1,
        kept_entries_of_faithful rest proper.2.2.2 faithful.2]

end

/-- The trees have the same nodes at the same places. -/
def SameTree (left right : List (Name × HostNode)) : Prop :=
  ∀ name rest, treeAt left name rest = treeAt right name rest

theorem tree_at_present : ∀ (tree : HostTree) (name : Name), name ∈ tree.names →
    treeAt tree name [] ≠ none
  | (fileName, node) :: more, name, present => by
      rw [HostTree.names, List.map_cons, List.mem_cons] at present
      rw [treeAt]
      by_cases same : fileName = name
      · rw [if_pos same]
        cases node <;> exact Option.some_ne_none _
      · rw [if_neg same]
        exact tree_at_present more name (present.resolve_left (Ne.symm same))

theorem proper_distinct : ∀ tree : HostTree, tree.Proper → tree.names.Nodup
  | [], _ => List.nodup_nil
  | (_, _) :: rest, proper =>
      List.nodup_cons.mpr ⟨proper.2.2.1, proper_distinct rest proper.2.2.2⟩

/-- A directory with more entries than the count says loses the one after them. -/
theorem same_tree_count (tree : HostTree) (proper : tree.Proper)
    (same : SameTree tree.kept tree.regular) : tree.regular.length < 2 ^ 32 := by
  by_contra many
  have total := regular_length tree
  have inside : (keptEntries tree).length % 2 ^ 32 < (HostTree.names (keptEntries tree)).length := by
    rw [HostTree.names, List.length_map]
    have wrapped := Nat.mod_lt (keptEntries tree).length (show 0 < 2 ^ 32 by norm_num)
    omega
  have distinct : (HostTree.names (keptEntries tree)).Nodup :=
    (proper_distinct tree proper).sublist (kept_names tree)
  set lost := (HostTree.names (keptEntries tree))[(keptEntries tree).length % 2 ^ 32] with lostDef
  have absent : lost ∉ HostTree.names tree.kept := by
    rw [HostTree.kept, HostTree.names, List.map_take, List.mem_take_iff_getElem]
    rintro ⟨index, early, found⟩
    have twice := (List.Nodup.getElem_inj_iff distinct).mp found
    omega
  have present : lost ∈ HostTree.names tree.regular := by
    rw [← regular_names]
    exact List.getElem_mem inside
  have gone := tree_at_absent tree.kept lost absent []
  rw [same lost []] at gone
  exact tree_at_present tree.regular lost present gone

mutual

theorem faithful_of_kept : ∀ (node kept whole : HostNode), node.Proper → node.kept = some kept →
    node.regular = some whole → (∀ rest, kept.at rest = whole.at rest) → node.Faithful
  | .file perm data, kept, whole, _, isKept, isWhole, same => by
      cases isKept
      cases isWhole
      have here := same []
      simp only [HostNode.at, Option.some.injEq, Inode.file.injEq, true_and] at here
      exact (kept_bytes_iff data).mp here
  | .symlink target, kept, whole, proper, isKept, isWhole, same => by
      cases isKept
      cases isWhole
      have here := same []
      simp only [HostNode.at, Option.some.injEq, Inode.symlink.injEq] at here
      rw [kept_target target proper.2] at here
      exact (lossy_exact_iff target).mp here
  | .special, _, _, _, _, _, _ => trivial
  | .dir perm entries, kept, whole, proper, isKept, isWhole, same => by
      cases isKept
      cases isWhole
      have inner : SameTree (HostTree.kept entries) (HostTree.regular entries) :=
        fun name rest => same (name :: rest)
      have count := same_tree_count entries proper inner
      rw [kept_whole entries count] at inner
      exact ⟨count, faithful_entries_of_kept entries proper inner⟩

theorem faithful_entries_of_kept : ∀ tree : List (Name × HostNode), ProperEntries tree →
    SameTree (keptEntries tree) (regularEntries tree) → FaithfulEntries tree
  | [], _, _ => trivial
  | (name, node) :: rest, proper, same => by
      obtain ⟨_, nodeProper, distinct, others⟩ := proper
      have keptAbsent := fun more => tree_at_absent (keptEntries rest) name
        (fun again => distinct ((kept_names rest).subset again)) more
      have wholeAbsent := fun more => tree_at_absent (regularEntries rest) name
        (fun again => distinct ((kept_names rest).subset (by rwa [regular_names]))) more
      have both := regular_is_some node
      rw [keptEntries, regularEntries] at same
      cases isKept : node.kept with
      | none =>
          cases isWhole : node.regular with
          | some _ => rw [isKept, isWhole] at both; cases both
          | none =>
              rw [isKept, isWhole] at same
              have special : node.Faithful := by
                cases node <;> trivial
              exact ⟨special, faithful_entries_of_kept rest others same⟩
      | some kept =>
          cases isWhole : node.regular with
          | none => rw [isKept, isWhole] at both; cases both
          | some whole =>
              rw [isKept, isWhole] at same
              have head : ∀ more, kept.at more = whole.at more := by
                intro more
                have here := same name more
                simpa [treeAt] using here
              have tail : SameTree (keptEntries rest) (regularEntries rest) := by
                intro other more
                by_cases again : name = other
                · rw [← again, keptAbsent, wholeAbsent]
                · have here := same other more
                  simpa [treeAt, again] using here
              exact ⟨faithful_of_kept node kept whole nodeProper isKept isWhole head,
                faithful_entries_of_kept rest others tail⟩

end

/-- What a restore lays is the tree itself exactly when nothing of it is lost. -/
theorem same_tree_iff (tree : HostTree) (proper : tree.Proper) :
    SameTree tree.kept tree.regular ↔ tree.Faithful := by
  constructor
  · intro same
    have count := same_tree_count tree proper same
    rw [kept_whole tree count] at same
    exact ⟨count, faithful_entries_of_kept tree proper same⟩
  · rintro ⟨count, faithful⟩ name rest
    rw [kept_whole tree count, kept_entries_of_faithful tree proper faithful, HostTree.regular]

/-! ## The round trip -/

mutual

/-- No directory of the tree lists more than the cipher seals in one message. -/
def HostNode.Sealable (ls : Lifestream) : HostNode → Prop
  | .file _ _ => True
  | .symlink _ => True
  | .special => True
  | .dir _ entries =>
      (Object.tree (treeEntries ls entries)).encode.length ≤ maxMessage ∧ SealableEntries ls entries

def SealableEntries (ls : Lifestream) : List (Name × HostNode) → Prop
  | [] => True
  | (_, node) :: rest => node.Sealable ls ∧ SealableEntries ls rest

end

def HostTree.Sealable (ls : Lifestream) (tree : HostTree) : Prop :=
  (Object.tree (treeEntries ls tree)).encode.length ≤ maxMessage ∧ SealableEntries ls tree

theorem put_ok (ls : Lifestream) (object : Object) (device : Device)
    (faultless : device.faults = []) (short : object.encode.length ≤ maxMessage) :
    ∃ id after, ls.put object device = .ok id after :=
  ⟨_, put_succeeds ls.store object.encode device faultless short⟩

mutual

theorem snapshot_node_succeeds (ls : Lifestream) (name : String) :
    ∀ (node : HostNode) (device : Device), node.Proper → node.Faithful → node.Sealable ls →
      device.faults = [] → ∃ entry after, snapshotNode ls name node device = .ok entry after
  | .file perm data, device, _, faithful, _, faultless => by
      obtain ⟨id, after, wrote⟩ := write_bytes_succeeds_of_count ls data faithful device faultless
      exact ⟨_, after, by rw [snapshotNode, bind_apply, wrote]; rfl⟩
  | .symlink target, device, proper, _, _, faultless => by
      have size := lossy_length target
      have short := proper.2
      obtain ⟨id, after, wrote⟩ := write_bytes_succeeds ls (utf8 (fromUtf8Lossy target))
        (by omega) device faultless
      exact ⟨_, after, by rw [snapshotNode, bind_apply, wrote]; rfl⟩
  | .special, device, _, _, _, _ => ⟨none, device, rfl⟩
  | .dir perm entries, device, proper, faithful, seals, faultless => by
      obtain ⟨children, middle, inside⟩ :=
        snapshot_entries_succeeds ls entries device proper faithful.2 seals.2 faultless
      obtain ⟨rfl, _, advances⟩ := snapshot_entries_holds ls entries device middle _ inside
      obtain ⟨id, after, put⟩ := put_ok ls _ middle (advances.faults faultless) seals.1
      exact ⟨_, after, by simp only [snapshotNode, bind_apply, inside, put]; rfl⟩

theorem snapshot_entries_succeeds (ls : Lifestream) :
    ∀ (tree : List (Name × HostNode)) (device : Device), ProperEntries tree →
      FaithfulEntries tree → SealableEntries ls tree → device.faults = [] →
        ∃ entries after, snapshotEntries ls tree device = .ok entries after
  | [], device, _, _, _, _ => ⟨[], device, rfl⟩
  | (name, node) :: rest, device, proper, faithful, seals, faultless => by
      obtain ⟨text, decoded, _⟩ := proper.1.decoded
      obtain ⟨entry, middle, one⟩ := snapshot_node_succeeds ls text node device proper.2.1 faithful.1
        seals.1 faultless
      have advances := (snapshot_node_holds ls text node device middle entry one).2.2
      obtain ⟨entries, after, more⟩ := snapshot_entries_succeeds ls rest middle proper.2.2.2
        faithful.2 seals.2 (advances.faults faultless)
      refine ⟨entry.toList ++ entries, after, ?_⟩
      rw [snapshotEntries, decoded]
      simp only [bind_apply, one, more]
      rfl

end

/-- A snapshot puts the tree object of its root, and all that is below it. -/
theorem snapshot_dir_holds (ls : Lifestream) (tree : HostTree) (device after : Device)
    (id : ObjectId) (snapped : ls.snapshotDir tree device = .ok id after) :
    id = ls.store.idOf (Object.tree (treeEntries ls tree)).encode ∧
      Stored ls.store after (Object.tree (treeEntries ls tree)).encode ∧ HoldsTree ls after tree ∧
        Advances ls.store device after := by
  simp only [Lifestream.snapshotDir, bind_apply] at snapped
  cases inside : snapshotEntries ls tree device with
  | error error middle => simp [inside] at snapped
  | ok entries middle =>
      obtain ⟨rfl, holds, first⟩ := snapshot_entries_holds ls tree device middle entries inside
      simp only [inside] at snapped
      have second := put_advances ls _ snapped
      obtain ⟨address, stored⟩ :=
        put_stored ls.store (Object.tree (treeEntries ls tree)).encode middle after id snapped
      exact ⟨address, stored, holds_tree_grow second.toKeeps tree holds,
        Advances.trans ls.store _ _ _ first second⟩

/-- A snapshot of a tree fails for nothing but the writes of the store. -/
theorem snapshot_dir_succeeds (ls : Lifestream) (tree : HostTree) (proper : tree.Proper)
    (faithful : tree.Faithful) (seals : tree.Sealable ls) (device : Device)
    (faultless : device.faults = []) : ∃ id after, ls.snapshotDir tree device = .ok id after := by
  obtain ⟨entries, middle, inside⟩ :=
    snapshot_entries_succeeds ls tree device proper faithful.2 seals.2 faultless
  obtain ⟨rfl, _, advances⟩ := snapshot_entries_holds ls tree device middle _ inside
  obtain ⟨id, after, put⟩ := put_ok ls _ middle (advances.faults faultless) seals.1
  refine ⟨id, after, ?_⟩
  simp only [Lifestream.snapshotDir, bind_apply, inside, put]

theorem snapshot_restored_iff (ls : Lifestream) (defaults : Defaults) (tree : HostTree)
    (proper : tree.Proper) (device after : Device) (id : ObjectId) (sound : Sound ls.store device)
    (snapped : ls.snapshotDir tree device = .ok id after) (free : CollisionFree ls.store after)
    (readable : after.Readable) (depth : Nat) (deep : treeDepth tree < depth) (fs : HostFs)
    (dest : HostPath) (dirs : Directories fs dest)
    (empty : ∀ name rest, fs (dest ++ name :: rest) = none) :
    (∃ restored, ls.restoreTree after defaults depth id dest fs = .ok () restored ∧
      Lays fs restored dest tree.regular) ↔ tree.Faithful := by
  obtain ⟨rfl, stored, holds, advances⟩ := snapshot_dir_holds ls tree device after id snapped
  obtain ⟨restored, ran, laid⟩ := restore_lays ls after defaults (advances.sound sound) free
    readable tree proper depth deep holds stored fs dest dirs empty
  rw [← same_tree_iff tree proper]
  constructor
  · rintro ⟨other, again, whole⟩
    rw [ran] at again
    cases again
    exact laid.unique whole empty
  · intro same
    refine ⟨restored, ran, ?_, laid.elsewhere⟩
    intro name rest
    rw [laid.below, same]

/-- Restored into an empty directory, the snapshot of a tree is the tree without its
special files, exactly when the tree is faithful; and of a faithful tree there is one. -/
theorem snapshot_restores_iff (ls : Lifestream) (defaults : Defaults) (tree : HostTree)
    (proper : tree.Proper) (device : Device) (reachable : Reachable ls device) :
    (device.faults = [] → tree.Sealable ls → tree.Faithful →
      ∃ id after, ls.snapshotDir tree device = .ok id after) ∧
    ∀ id after, ls.snapshotDir tree device = .ok id after → CollisionFree ls.store after →
      after.Readable → ∀ depth fs dest, treeDepth tree < depth → Directories fs dest →
        (∀ name rest, fs (dest ++ name :: rest) = none) →
          ((∃ restored, ls.restoreTree after defaults depth id dest fs = .ok () restored ∧
            Lays fs restored dest tree.regular) ↔ tree.Faithful) := by
  constructor
  · intro faultless seals faithful
    exact snapshot_dir_succeeds ls tree proper faithful seals device faultless
  · intro id after snapped free readable depth fs dest deep dirs empty
    exact snapshot_restored_iff ls defaults tree proper device after id reachable.sound snapped free
      readable depth deep fs dest dirs empty

/-! ## A target that is not text -/

/-- A file system of a root and nothing else. -/
def bareHost : HostFs := fun path => if path = [] then some (.dir 0o755) else none

theorem bare_directories : Directories bareHost [] where
  plain _ member := absurd member List.not_mem_nil
  dirs place before := ⟨0o755, by rw [List.prefix_nil.mp before]; rfl⟩

theorem bare_empty (name : Name) (rest : List Name) : bareHost ([] ++ name :: rest) = none := rfl

def hostDefaults : Defaults := ⟨0o644, 0o755⟩

theorem listed_a : Listed (utf8 "a") where
  plain := ⟨by decide, by decide, by decide, by decide⟩
  text := by rw [from_utf8_utf8]; rfl
  short := by decide

/-- A directory with one symbolic link, `a`. -/
def linkTo (target : Bytes) : HostTree := [(utf8 "a", .symlink target)]

theorem proper_link (target : Bytes) (nonempty : target ≠ []) (short : target.length < 2 ^ 40) :
    (linkTo target).Proper := ⟨listed_a, ⟨nonempty, short⟩, List.not_mem_nil, trivial⟩

/-- A snapshot of it in a store that was fresh, with what is known of the store then. -/
theorem link_snapshots (target : Bytes)
    (ok : isOk (sampleStore.snapshotDir (linkTo target) Device.fresh) = true)
    (free : ∀ left ∈ (finalState (sampleStore.snapshotDir (linkTo target) Device.fresh)).written,
      ∀ right ∈ (finalState (sampleStore.snapshotDir (linkTo target) Device.fresh)).written,
        sampleStore.store.idOf left = sampleStore.store.idOf right → left = right) :
    ∃ id after, sampleStore.snapshotDir (linkTo target) Device.fresh = .ok id after ∧
      CollisionFree sampleStore.store after ∧ after.Readable := by
  obtain ⟨id, after, snapped⟩ := of_is_ok _ ok
  have advances := (snapshot_dir_holds sampleStore (linkTo target) _ after id snapped).2.2.2
  rw [snapped] at free
  refine ⟨id, after, snapped, free, fun other => ?_⟩
  rw [advances.unreadable]
  rfl

theorem snapshot_restores_iff_sample :
    ∃ id after, sampleStore.snapshotDir (linkTo (utf8 "b")) Device.fresh = .ok id after ∧
      ((∃ restored, sampleStore.restoreTree after hostDefaults 1 id [] bareHost = .ok () restored ∧
        Lays bareHost restored [] (linkTo (utf8 "b")).regular) ↔ (linkTo (utf8 "b")).Faithful) := by
  obtain ⟨id, after, snapped, free, readable⟩ :=
    link_snapshots (utf8 "b") (by decide +kernel) (by decide +kernel)
  have restores := snapshot_restores_iff sampleStore hostDefaults (linkTo (utf8 "b"))
    (proper_link (utf8 "b") (by decide) (by decide)) Device.fresh ⟨Device.fresh, [], rfl, rfl⟩
  exact ⟨id, after, snapped, restores.2 id after snapped free readable 1 bareHost [] (by decide)
    bare_directories bare_empty⟩

/-- A link to the byte 0xFF comes back as a link to U+FFFD. -/
theorem lossy_target_lost :
    ∃ id after, sampleStore.snapshotDir (linkTo [0xFF]) Device.fresh = .ok id after ∧
      CollisionFree sampleStore.store after ∧ after.Readable ∧ (linkTo [0xFF]).Proper ∧
      ¬∃ restored, sampleStore.restoreTree after hostDefaults 1 id [] bareHost = .ok () restored ∧
        Lays bareHost restored [] (linkTo [0xFF]).regular := by
  obtain ⟨id, after, snapped, free, readable⟩ :=
    link_snapshots [0xFF] (by decide +kernel) (by decide +kernel)
  have proper := proper_link [0xFF] (by decide) (by decide)
  refine ⟨id, after, snapped, free, readable, proper, ?_⟩
  rw [snapshot_restored_iff sampleStore hostDefaults (linkTo [0xFF]) proper Device.fresh after id
    (fresh_sound _) snapped free readable 1 (by decide) bareHost [] bare_directories bare_empty]
  intro faithful
  have text : (fromUtf8 [0xFF]).isSome := faithful.2.1
  exact absurd text (by decide)

end HorizonOs.Lifestream
