import HorizonOs.Keybuild.FatRender

/-!
# A stored tree read back

A reader whose volume has the geometry of the builder, and whose table has its links,
finds every file and directory that is stored: their names, contents and chains, and in
each directory where it is and what is above it.
-/

namespace HorizonOs.Keybuild.Fat

open HorizonOs.Lib.ByteCodec HorizonOs.Lib.Buffer HorizonOs.Lib.Utf16

set_option autoImplicit false

/-! ## Trees that can be stored -/

mutual

/-- Every name of the tree is one that FAT can carry. -/
def Node.Valid : Node → Prop
  | .file _ => True
  | .dir sub => Dir.Valid sub

def Dir.Valid : Dir → Prop
  | .nil => True
  | .cons _ name node rest => validateName name = true ∧ node.Valid ∧ Dir.Valid rest

end

mutual

/-- Every file is below 4 GiB. -/
def Node.Small : Node → Prop
  | .file data => data.length < 2 ^ 32
  | .dir sub => Dir.Small sub

def Dir.Small : Dir → Prop
  | .nil => True
  | .cons _ _ node rest => node.Small ∧ Dir.Small rest

end

mutual

def Node.depth : Node → Nat
  | .file _ => 0
  | .dir sub => Dir.depth sub + 1

/-- How many directories are one in the other. -/
def Dir.depth : Dir → Nat
  | .nil => 0
  | .cons _ _ node rest => max node.depth (Dir.depth rest)

end

/-! ## What a reader should find -/

section Expected

variable (geom : Geometry)

mutual

/-- A node with the clusters it is given from `next` on. -/
def foundNode (parent next : Nat) : Node → Found
  | .file data => .file (List.range' next (fileClusters geom data)) data
  | .dir sub =>
      .dir (List.range' next (dirClusters geom sub false)) next parent
        (foundAll next (next + dirClusters geom sub false) sub)

def foundAll (parent next : Nat) : Dir → List (String × Found)
  | .nil => []
  | .cons _ name node rest =>
      (shownName name, foundNode parent next node) :: foundAll parent (next + need geom node) rest

end

/-- The entry a reader makes of a child. -/
def Node.dirEntry (next : Nat) (short : Bytes) (name : String) : Node → DirEntry
  | .file data => ⟨short, shownName name, false, if data = [] then 0 else next, data.length⟩
  | .dir _ => ⟨short, shownName name, true, next, 0⟩

def childEntries : Nat → List (Bytes × Option String) → Dir → List DirEntry
  | next, (short, _) :: plan, .cons _ name node rest =>
      node.dirEntry next short name :: childEntries (next + need geom node) plan rest
  | _, _, _ => []

end Expected

mutual

theorem same_node_found (geom : Geometry) : ∀ (node : Node) (parent next : Nat),
    SameNode node (foundNode geom parent next node)
  | .file data, _, _ => by
      rw [foundNode, SameNode]
  | .dir sub, _, next => by
      rw [foundNode, SameNode]
      exact same_dir_found geom sub next _

theorem same_dir_found (geom : Geometry) : ∀ (dir : Dir) (parent next : Nat),
    SameDir dir (foundAll geom parent next dir)
  | .nil, _, _ => trivial
  | .cons _ _ node rest, parent, next =>
      ⟨rfl, same_node_found geom node parent next, same_dir_found geom rest parent _⟩

end

mutual

theorem dotted_node_found (geom : Geometry) : ∀ (node : Node) (parent next : Nat),
    (foundNode geom parent next node).Dotted parent
  | .file _, _, _ => trivial
  | .dir sub, parent, next => by
      obtain ⟨more, count⟩ := Nat.exists_eq_succ_of_ne_zero (dir_clusters_pos geom sub false).ne'
      refine ⟨?_, rfl, dotted_all_found geom sub next _⟩
      rw [count]
      rfl

theorem dotted_all_found (geom : Geometry) : ∀ (dir : Dir) (parent next : Nat),
    DottedAll parent (foundAll geom parent next dir)
  | .nil, _, _ => trivial
  | .cons _ _ node rest, parent, next =>
      ⟨dotted_node_found geom node parent next, dotted_all_found geom rest parent _⟩

end

mutual

/-- The clusters of a tree are those in a row that it needs. -/
theorem clusters_node_found (geom : Geometry) : ∀ (node : Node) (parent next : Nat),
    (foundNode geom parent next node).clusters = List.range' next (need geom node)
  | .file data, _, _ => rfl
  | .dir sub, parent, next => by
      rw [foundNode, Found.clusters, clusters_all_found geom sub next, need, List.range'_append_1]

theorem clusters_all_found (geom : Geometry) : ∀ (dir : Dir) (parent next : Nat),
    clustersAll (foundAll geom parent next dir) = List.range' next (needAll geom dir)
  | .nil, _, _ => rfl
  | .cons _ _ node rest, parent, next => by
      rw [foundAll, clustersAll, clusters_node_found geom node parent,
        clusters_all_found geom rest parent, needAll, List.range'_append_1]

end

mutual

theorem depth_node_le (geom : Geometry) : ∀ node : Node, node.depth ≤ need geom node
  | .file _ => Nat.zero_le _
  | .dir sub => by
      have below := depth_le geom sub
      have own := dir_clusters_pos geom sub false
      rw [Node.depth, need]
      omega

/-- A tree is no deeper than the clusters it needs. -/
theorem depth_le (geom : Geometry) : ∀ dir : Dir, dir.depth ≤ needAll geom dir
  | .nil => Nat.zero_le _
  | .cons _ _ node rest => by
      have first := depth_node_le geom node
      have others := depth_le geom rest
      rw [Dir.depth, needAll]
      omega

end

/-! ## Directories parsed -/

/-- The records of the children are read as their entries. -/
theorem parse_children (geom : Geometry) : ∀ (dir : Dir) (next : Nat)
    (plan : List (Bytes × Option String)) (tail : List Bytes), List.Forall₂ Planned dir.names plan →
      dir.Valid → dir.Small → next + needAll geom dir < 2 ^ 32 →
        parseEntries [] (records (childBytes geom next plan dir) ++ tail) =
          childEntries geom next plan dir ++ parseEntries [] tail
  | .nil, _, _, _, planned, _, _, _ => by
      cases planned
      simp [childBytes, childEntries, records]
  | .cons _ name node rest, next, _, tail, planned, valid, small, room => by
      cases planned with
      | @cons _ head _ more first others =>
          obtain ⟨short, long⟩ := head
          rw [needAll] at room
          have slots : (longEntries long short ++ nodeEntry next short node).length % 32 = 0 := by
            rw [List.length_append, node_entry_length, long_entries_length first]
            omega
          have head : parseEntries [] (records (longEntries long short ++ nodeEntry next short node) ++
              (records (childBytes geom (next + need geom node) more rest) ++ tail)) =
                node.dirEntry next short name ::
                  parseEntries [] (records (childBytes geom (next + need geom node) more rest) ++ tail) := by
            cases node with
            | file data =>
                have fits : (if data = [] then 0 else next) < 2 ^ 32 := by split_ifs <;> omega
                exact parse_child first valid.1 _ data.length attrArchive (.inl rfl) fits small.1 _
            | dir sub =>
                exact parse_child first valid.1 next 0 attrDirectory (.inr rfl) (by omega) (by omega) _
          rw [childBytes, records_append _ _ slots, List.append_assoc, head,
            parse_children geom rest _ more tail others valid.2.2 small.2 (by omega)]
          rfl

theorem dot_short : ShortField (dotName ".") ∧ ShortField (dotName "..") :=
  ⟨⟨by decide, by decide, by decide⟩, ⟨by decide, by decide, by decide⟩⟩

/-- The bytes of a subdirectory, and zeros after them, are read as its dots and children. -/
theorem entries_of_dir (geom : Geometry) (params : Params) (dir : Dir) (self parent next count : Nat)
    (plan : List (Bytes × Option String)) (made : planChildren dir = some plan) (valid : dir.Valid)
    (small : dir.Small) (room : next + needAll geom dir < 2 ^ 32) (selfFits : self < 2 ^ 32)
    (parentFits : parent < 2 ^ 32) :
    entriesOf (openingEntries params false self parent ++ childBytes geom next plan dir ++
        List.replicate count 0) =
      ⟨dotName ".", shortName (dotName "."), true, self, 0⟩ ::
        ⟨dotName "..", shortName (dotName ".."), true, parent, 0⟩ :: childEntries geom next plan dir := by
  have planned := plan_fields_planned made
  have opening : records (openingEntries params false self parent) =
      [entry (dotName ".") self 0 attrDirectory, entry (dotName "..") parent 0 attrDirectory] := by
    rw [openingEntries, if_neg Bool.false_ne_true, records_append _ _ (by rw [length_entry]),
      records_one _ (length_entry _ _ _ _), records_one _ (length_entry _ _ _ _)]
    rfl
  have unslotted : ∀ short, longName [] short = none := by
    intro short
    rw [longName, if_neg]
    rintro ⟨_, _, nonempty, _⟩
    exact nonempty rfl
  have openingWhole := opening_length params false self parent
  have childrenWhole := child_bytes_length geom dir next plan planned
  rw [entriesOf, List.append_assoc, records_append _ _ (by rw [openingWhole]; rfl),
    records_append _ _ (by rw [childrenWhole, Nat.mul_mod_left]), opening, List.cons_append,
    List.singleton_append,
    parse_entry dot_short.1 [] self 0 attrDirectory (.inr rfl) selfFits (by omega),
    parse_entry dot_short.2 [] parent 0 attrDirectory (.inr rfl) parentFits (by omega),
    parse_children geom dir next plan _ planned valid small room, parse_zeros, List.append_nil,
    unslotted, unslotted]
  rfl

/-! ## The tree read -/

/-- A reader's volume with the geometry of the builder, and its table with the links. -/
structure Mounts (volume : Volume) (image : Bytes) (geom : Geometry) (fat : List Nat) : Prop where
  count : volume.clusterCount = geom.clusterCount
  bytes : volume.clusterBytes = geom.clusterBytes
  data : volume.dataOffset = geom.dataStartSector * sector
  table : ∀ c value, fat[c]? = some value → value ≤ geom.eoc → volume.next image c = value
  ends : volume.isEoc geom.eoc = true
  goes : ∀ i, i ≤ geom.clusterCount + 1 → volume.isEoc i = false
  marks : geom.clusterCount + 1 ≤ geom.eoc
  inside : geom.clusterOffset (geom.clusterCount + 2) ≤ image.length
  wide : 0 < geom.clusterBytes
  few : geom.clusterCount + 2 < 2 ^ 32

section Read

variable {volume : Volume} {image : Bytes} {geom : Geometry} {fat : List Nat}
  (mounts : Mounts volume image geom fat)

include mounts

theorem chain_read {c n : Nat} (linked : Linked geom.eoc fat c n) (low : 2 ≤ c) (some : 0 < n)
    (high : c + n ≤ geom.clusterCount + 2) :
    volume.chainFrom image c = Option.some (List.range' c n) := by
  have marks := mounts.marks
  apply chain_linked volume image geom.eoc c n volume.clusterCount low some
  · rw [mounts.count]
    exact high
  · rw [mounts.count]
    omega
  · intro i after before
    apply mounts.table i _ (linked i after before)
    split_ifs <;> omega
  · exact mounts.ends
  · rw [mounts.count]
    exact mounts.goes

theorem contents_read {c n : Nat} (low : 2 ≤ c) :
    volume.contents image (List.range' c n) =
      slice image (geom.clusterOffset c) (n * geom.clusterBytes) := by
  have offset : geom.dataStartSector * sector + (c - 2) * geom.clusterBytes = geom.clusterOffset c := by
    rw [Geometry.clusterOffset, Geometry.clusterBytes]
    ring
  rw [contents_range volume image c n low, mounts.data, mounts.bytes, offset]

/-- A file is found with its contents, in the clusters it was given. -/
theorem read_file (data : Bytes) (short : Bytes) (name : String) (parent next : Nat)
    (small : data.length < 2 ^ 32) (params : Params) (low : 2 ≤ next)
    (high : next + need geom (.file data) ≤ geom.clusterCount + 2)
    (stored : StoredNode geom params image fat parent next (.file data))
    (read : List DirEntry → Option (List (String × Found))) :
    readChild volume image read ((Node.file data).dirEntry next short name) =
      some (foundNode geom parent next (.file data)) := by
  rw [readChild, Node.dirEntry, foundNode, if_neg Bool.false_ne_true]
  have fits := le_div_ceil data.length geom.clusterBytes mounts.wide
  by_cases none : data = []
  · have zero : fileClusters geom data = 0 := by
      rw [none, fileClusters, divCeil]
      have wide := mounts.wide
      exact Nat.div_eq_of_lt (by change 0 + (geom.clusterBytes - 1) < _; omega)
    rw [zero, none]
    rfl
  · have nonempty := List.length_pos_iff.mpr none
    have some : 0 < fileClusters geom data := by
      rw [fileClusters]
      by_contra zero
      rw [Nat.eq_zero_of_not_pos zero] at fits
      omega
    have ends := cluster_offset_add geom next (fileClusters geom data) low
    have last := @cluster_mono geom _ _ high
    have inImage := mounts.inside
    rw [need] at high last
    have length : (slice image (geom.clusterOffset next)
        (fileClusters geom data * geom.clusterBytes)).length =
          fileClusters geom data * geom.clusterBytes := length_slice _ _ _ (by omega)
    have whole : (slice image (geom.clusterOffset next)
        (fileClusters geom data * geom.clusterBytes)).take data.length = data := by
      have inner := slice_slice image (geom.clusterOffset next)
        (fileClusters geom data * geom.clusterBytes) 0 data.length (by rw [fileClusters]; omega)
      rw [Nat.add_zero, stored.1] at inner
      exact inner
    simp only [if_neg none, if_neg (Nat.ne_of_gt nonempty), chain_read mounts stored.2 low some high,
      contents_read mounts low, Option.bind_eq_bind, Option.bind_some, length, whole]
    rw [if_neg (by rw [fileClusters]; omega)]

mutual

theorem read_node (params : Params) : ∀ (node : Node) (short : Bytes) (name : String)
    (parent next fuel : Nat), node.Valid → node.Small → 2 ≤ next →
      next + need geom node ≤ geom.clusterCount + 2 → parent < 2 ^ 32 → node.depth ≤ fuel →
        StoredNode geom params image fat parent next node →
          readChild volume image (readEntries volume image fuel) (node.dirEntry next short name) =
            some (foundNode geom parent next node)
  | .file data, short, name, parent, next, fuel, _, small, low, high, _, _, stored =>
      read_file mounts data short name parent next small params low high stored _
  | .dir sub, short, name, parent, next, fuel, valid, small, low, high, above, deep, stored => by
      obtain ⟨⟨plan, made, padded⟩, linked, below⟩ := stored
      rw [need] at high
      have few := mounts.few
      have own := dir_clusters_pos geom sub false
      have chained := chain_read mounts linked low own (by omega)
      have listed := entries_of_dir geom params sub next parent
        (next + dirClusters geom sub false)
        (dirClusters geom sub false * geom.clusterBytes -
          (openingEntries params false next parent ++
            childBytes geom (next + dirClusters geom sub false) plan sub).length) plan made valid
        small (by omega) (by omega) above
      have children := read_all params sub plan next (next + dirClusters geom sub false) fuel
        (plan_fields_planned made) valid small (by omega) (by omega) (by omega) deep below
      rw [Padded] at padded
      simp only [readChild, Node.dirEntry, if_true, chained, Option.bind_eq_bind, Option.bind_some,
        contents_read mounts low, padded, listed, children, true_and, foundNode]

theorem read_all (params : Params) : ∀ (dir : Dir) (plan : List (Bytes × Option String))
    (parent next fuel : Nat), List.Forall₂ Planned dir.names plan → dir.Valid → dir.Small →
      2 ≤ next → next + needAll geom dir ≤ geom.clusterCount + 2 → parent < 2 ^ 32 →
        dir.depth < fuel → StoredAll geom params image fat parent next dir →
          readEntries volume image fuel (childEntries geom next plan dir) =
            some (foundAll geom parent next dir)
  | .nil, _, parent, next, fuel, planned, _, _, _, _, _, deep, _ => by
      cases planned
      cases fuel with
      | zero => exact absurd deep (Nat.not_lt_zero _)
      | succ fuel => rfl
  | .cons _ name node rest, _, parent, next, fuel, planned, valid, small, low, high, above, deep,
      stored => by
      cases planned with
      | @cons _ head _ more first others =>
          obtain ⟨short, long⟩ := head
          rw [needAll] at high
          rw [Dir.depth] at deep
          have tail := read_all params rest more parent (next + need geom node) fuel others valid.2.2
            small.2 (by omega) (by omega) above (by omega) stored.2
          cases fuel with
          | zero => exact absurd deep (Nat.not_lt_zero _)
          | succ fuel =>
              have one := read_node params node short name parent next fuel valid.2.1 small.1 low
                (by omega) above (by omega) stored.1
              have shown : (node.dirEntry next short name).name = shownName name := by
                cases node <;> rfl
              rw [readEntries] at tail
              rw [childEntries, readEntries, List.mapM_cons, one, tail, shown]
              rfl

end

end Read

end HorizonOs.Keybuild.Fat
