import HorizonOs.Keybuild.FatClusters

/-!
# Where the builder puts a tree

The clusters a tree needs and the bytes of its directories, counted from the first free
cluster on, and the builder against them: it succeeds exactly when so many clusters are
left, uses those and no others, and leaves every file and directory stored in its own.
-/

namespace HorizonOs.Keybuild.Fat

open HorizonOs.Lib.ByteCodec HorizonOs.Lib.Buffer HorizonOs.Lib.Utf16

set_option autoImplicit false

/-! ## What a tree needs -/

section Layout

variable (geom : Geometry)

mutual

/-- The clusters of a node and of all that is in it. -/
def need : Node → Nat
  | .file data => fileClusters geom data
  | .dir sub => dirClusters geom sub false + needAll sub

def needAll : Dir → Nat
  | .nil => 0
  | .cons _ _ node rest => need node + needAll rest

end

/-- The short entry of a child whose clusters begin at `next`. -/
def nodeEntry (next : Nat) (short : Bytes) : Node → Bytes
  | .file data => entry short (if data = [] then 0 else next) data.length attrArchive
  | .dir _ => entry short next 0 attrDirectory

/-- The entries of the children of a directory. -/
def childBytes : Nat → List (Bytes × Option String) → Dir → Bytes
  | next, (short, long) :: plan, .cons _ _ node rest =>
      longEntries long short ++ nodeEntry next short node ++
        childBytes (next + need geom node) plan rest
  | _, _, _ => []

end Layout

mutual

/-- Every directory has a short field for each of its names. -/
def Node.HasFields : Node → Prop
  | .file _ => True
  | .dir sub => (planChildren sub).isSome ∧ Dir.HasFields sub

def Dir.HasFields : Dir → Prop
  | .nil => True
  | .cons _ _ node rest => node.HasFields ∧ Dir.HasFields rest

end

/-! ## Sizes -/

theorem le_div_ceil (x a : Nat) (wide : 0 < a) : x ≤ divCeil x a * a := by
  rw [divCeil]
  have exact := Nat.div_add_mod (x + (a - 1)) a
  have small := Nat.mod_lt (x + (a - 1)) wide
  rw [Nat.mul_comm]
  omega

theorem long_entries_length {name : String} {plan : Bytes × Option String}
    (planned : Planned name plan) : (longEntries plan.2 plan.1).length = lfnSlots name * 32 := by
  rcases planned with ⟨fits, none⟩ | ⟨misfits, named, _⟩
  · rw [none, lfnSlots, fits]
    rfl
  · rw [named, lfnSlots, misfits]
    exact length_lfn_entries name plan.1

theorem node_entry_length (next : Nat) (short : Bytes) (node : Node) :
    (nodeEntry next short node).length = 32 := by
  cases node <;> rw [nodeEntry, length_entry]

/-- The children's entries take the slots counted for them. -/
theorem child_bytes_length (geom : Geometry) : ∀ (dir : Dir) (next : Nat)
    (plan : List (Bytes × Option String)), List.Forall₂ Planned dir.names plan →
      (childBytes geom next plan dir).length =
        (dir.names.map fun name => 1 + lfnSlots name).sum * 32
  | .nil, _, _, planned => by
      cases planned
      rfl
  | .cons _ name node rest, next, _, planned => by
      cases planned with
      | cons head tail =>
          have more := child_bytes_length geom rest (next + need geom node) _ tail
          rw [childBytes, List.length_append, List.length_append, long_entries_length head,
            node_entry_length, more, Dir.names, List.map_cons, List.sum_cons]
          omega

theorem opening_length (params : Params) (isRoot : Bool) (self parent : Nat) :
    (openingEntries params isRoot self parent).length = (if isRoot then 1 else 2) * 32 := by
  cases isRoot
  · rw [openingEntries, if_neg Bool.false_ne_true, List.length_append, length_entry, length_entry]
    rfl
  · rw [openingEntries, if_pos rfl, length_entry]
    rfl

theorem dir_bytes_length (geom : Geometry) (params : Params) (isRoot : Bool)
    (self parent next : Nat) (dir : Dir) (plan : List (Bytes × Option String))
    (made : planChildren dir = some plan) :
    (openingEntries params isRoot self parent ++ childBytes geom next plan dir).length =
      contentSlots dir isRoot * 32 := by
  rw [List.length_append, opening_length, child_bytes_length geom dir next plan
    (plan_fields_planned made), contentSlots, Nat.add_mul]

/-! ## The builder -/

section Builder

variable (geom : Geometry) (params : Params)

/-- A builder in good order: all beyond the clusters it has handed out is zero. -/
structure Ready (b : Builder) : Prop where
  low : 2 ≤ b.nextFree
  high : b.nextFree ≤ geom.clusterCount + 2
  entries : b.fat.length = geom.clusterCount + 2
  inside : geom.clusterOffset (geom.clusterCount + 2) ≤ b.image.length
  zeros : ∀ i, geom.clusterOffset b.nextFree ≤ i → i < b.image.length → b.image[i]? = some 0

/-- The builder has handed out more clusters and written to no others. -/
structure Grown (b after : Builder) : Prop where
  order : b.nextFree ≤ after.nextFree
  imageLength : after.image.length = b.image.length
  fatLength : after.fat.length = b.fat.length
  image : ∀ i, i < geom.clusterOffset b.nextFree ∨ geom.clusterOffset after.nextFree ≤ i →
    after.image[i]? = b.image[i]?
  fat : ∀ c, c < b.nextFree ∨ after.nextFree ≤ c → after.fat[c]? = b.fat[c]?

variable {geom}

theorem Grown.refl (b : Builder) : Grown geom b b :=
  ⟨Nat.le_refl _, rfl, rfl, fun _ _ => rfl, fun _ _ => rfl⟩

theorem Grown.trans {first second third : Builder} (left : Grown geom first second)
    (right : Grown geom second third) : Grown geom first third where
  order := left.order.trans right.order
  imageLength := right.imageLength.trans left.imageLength
  fatLength := right.fatLength.trans left.fatLength
  image i outside := by
    have before := @cluster_mono geom _ _ left.order
    have after := @cluster_mono geom _ _ right.order
    exact (right.image i (by omega)).trans (left.image i (by omega))
  fat c outside := by
    have before := left.order
    have after := right.order
    exact (right.fat c (by omega)).trans (left.fat c (by omega))

theorem Ready.grown {b after : Builder} (ready : Ready geom b) (grown : Grown geom b after)
    (high : after.nextFree ≤ geom.clusterCount + 2) : Ready geom after where
  low := ready.low.trans grown.order
  high
  entries := grown.fatLength.trans ready.entries
  inside := by
    rw [grown.imageLength]
    exact ready.inside
  zeros i beyond within := by
    have order := @cluster_mono geom _ _ grown.order
    rw [grown.imageLength] at within
    rw [grown.image i (.inr beyond)]
    exact ready.zeros i (by omega) within

end Builder

/-! ## What is stored -/

/-- The bytes at the start of a region, and zeros to its end. -/
def Padded (image : Bytes) (offset size : Nat) (bytes : Bytes) : Prop :=
  slice image offset size = bytes ++ List.replicate (size - bytes.length) 0

/-- Written over zeros. -/
theorem padded_put (image : Bytes) (offset size : Nat) (bytes : Bytes)
    (inside : offset + size ≤ image.length) (fits : bytes.length ≤ size)
    (zeros : ∀ i, offset ≤ i → i < offset + size → image[i]? = some 0) :
    Padded (put image offset bytes) offset size bytes := by
  have tail : slice (put image offset bytes) (offset + bytes.length) (size - bytes.length) =
      List.replicate (size - bytes.length) 0 := by
    rw [slice_put_apart _ _ _ _ _ (.inr (Nat.le_refl _))]
    apply List.ext_getElem?
    intro i
    rw [get_slice, List.getElem?_replicate]
    by_cases read : i < size - bytes.length
    · rw [if_pos read, if_pos read, zeros _ (by omega) (by omega)]
    · rw [if_neg read, if_neg read]
  have whole := slice_append (put image offset bytes) offset bytes.length (size - bytes.length)
  rw [slice_put_self image offset bytes.length bytes rfl (by omega), tail,
    Nat.add_sub_cancel' fits] at whole
  exact whole.symm

theorem Padded.read {image : Bytes} {offset size : Nat} {bytes : Bytes}
    (padded : Padded image offset size bytes) (fits : bytes.length ≤ size) :
    slice image offset bytes.length = bytes := by
  have inner := slice_slice image offset size 0 bytes.length (by omega)
  rw [padded, slice_append_left _ _ _ _ (by omega), slice_whole _ _ rfl] at inner
  exact inner.symm

section Stored

variable (geom : Geometry) (params : Params) (image : Bytes) (fat : List Nat)

mutual

/-- A node is stored from a cluster on: its chain linked, and its contents in it. -/
def StoredNode (parent next : Nat) : Node → Prop
  | .file data =>
      slice image (geom.clusterOffset next) data.length = data ∧
        Linked geom.eoc fat next (fileClusters geom data)
  | .dir sub =>
      (∃ plan, planChildren sub = some plan ∧
        Padded image (geom.clusterOffset next) (dirClusters geom sub false * geom.clusterBytes)
          (openingEntries params false next parent ++
            childBytes geom (next + dirClusters geom sub false) plan sub)) ∧
        Linked geom.eoc fat next (dirClusters geom sub false) ∧
          StoredAll next (next + dirClusters geom sub false) sub

def StoredAll (parent next : Nat) : Dir → Prop
  | .nil => True
  | .cons _ _ node rest =>
      StoredNode parent next node ∧ StoredAll parent (next + need geom node) rest

end

end Stored

/-- Images and tables that are the same in the clusters from `low` to below `high`. -/
structure Agree (geom : Geometry) (low high : Nat) (image : Bytes) (fat : List Nat)
    (image' : Bytes) (fat' : List Nat) : Prop where
  image : ∀ i, geom.clusterOffset low ≤ i → i < geom.clusterOffset high → image'[i]? = image[i]?
  fat : ∀ c, low ≤ c → c < high → fat'[c]? = fat[c]?

section Frame

variable {geom : Geometry} {params : Params} {image image' : Bytes} {fat fat' : List Nat}

theorem Agree.narrow {low high low' high' : Nat} (agree : Agree geom low high image fat image' fat')
    (left : low ≤ low') (right : high' ≤ high) : Agree geom low' high' image fat image' fat' where
  image i after before := by
    have first := @cluster_mono geom _ _ left
    have last := @cluster_mono geom _ _ right
    exact agree.image i (by omega) (by omega)
  fat c after before := agree.fat c (by omega) (by omega)

theorem Linked.agree {low high c n : Nat} (linked : Linked geom.eoc fat c n)
    (agree : Agree geom low high image fat image' fat') (left : low ≤ c) (right : c + n ≤ high) :
    Linked geom.eoc fat' c n := by
  intro i after before
  rw [agree.fat i (by omega) (by omega)]
  exact linked i after before

mutual

/-- What is stored stays so under changes to other clusters. -/
theorem stored_node_agree : ∀ (node : Node) (parent next low high : Nat), 2 ≤ next →
    0 < geom.clusterBytes → low ≤ next → next + need geom node ≤ high →
      Agree geom low high image fat image' fat' →
        StoredNode geom params image fat parent next node →
          StoredNode geom params image' fat' parent next node
  | .file data, parent, next, low, high, two, wide, left, right, agree, stored => by
      have room := le_div_ceil data.length geom.clusterBytes wide
      have ends := cluster_offset_add geom next (fileClusters geom data) two
      have last := @cluster_mono geom _ _ right
      have first := @cluster_mono geom _ _ left
      rw [need] at right last
      rw [fileClusters] at ends last
      refine ⟨?_, stored.2.agree agree left right⟩
      rw [slice_congr image' image _ _ fun i after before => agree.image i (by omega) (by omega)]
      exact stored.1
  | .dir sub, parent, next, low, high, two, wide, left, right, agree, stored => by
      obtain ⟨⟨plan, planned, padded⟩, linked, below⟩ := stored
      rw [need] at right
      have ends := cluster_offset_add geom next (dirClusters geom sub false) two
      have last := @cluster_mono geom _ _ (show next + dirClusters geom sub false ≤ high by omega)
      have first := @cluster_mono geom _ _ left
      refine ⟨⟨plan, planned, ?_⟩, linked.agree agree left (by omega),
        stored_all_agree sub next _ low high (by omega) wide (by omega) (by omega) agree below⟩
      rw [Padded, slice_congr image' image _ _ fun i after before =>
        agree.image i (by omega) (by omega)]
      exact padded

theorem stored_all_agree : ∀ (dir : Dir) (parent next low high : Nat), 2 ≤ next →
    0 < geom.clusterBytes → low ≤ next → next + needAll geom dir ≤ high →
      Agree geom low high image fat image' fat' →
        StoredAll geom params image fat parent next dir →
          StoredAll geom params image' fat' parent next dir
  | .nil, _, _, _, _, _, _, _, _, _, _ => trivial
  | .cons _ _ node rest, parent, next, low, high, two, wide, left, right, agree, stored => by
      rw [needAll] at right
      exact ⟨stored_node_agree node parent next low high two wide left (by omega) agree stored.1,
        stored_all_agree rest parent (next + need geom node) low high (by omega) wide (by omega)
          (by omega) agree stored.2⟩

end

/-- A later builder has left alone what was stored before. -/
theorem Grown.agree {b after : Builder} (grown : Grown geom b after) (low : Nat) :
    Agree geom low b.nextFree b.image b.fat after.image after.fat where
  image i _ before := grown.image i (.inl before)
  fat c _ before := grown.fat c (.inl before)

end Frame

/-! ## Handing out clusters -/

section Render

variable {geom : Geometry}

/-- The builder after a chain of `n` clusters was taken. -/
def handOut (geom : Geometry) (b : Builder) (n : Nat) : Builder :=
  ⟨b.image, linkChain geom.eoc b.fat (List.range' b.nextFree n), b.nextFree + n⟩

theorem alloc_chain_ok {b : Builder} {n : Nat} (some : 0 < n)
    (room : b.nextFree + n ≤ geom.clusterCount + 2) :
    allocChain geom b n = .ok (List.range' b.nextFree n, handOut geom b n) := by
  rw [allocChain, if_neg]
  · rfl
  · rw [Geometry.maxCluster]
    omega

theorem alloc_chain_full {b : Builder} {n : Nat}
    (full : ¬b.nextFree + n ≤ geom.clusterCount + 2) :
    ∃ needed available, allocChain geom b n = .error (.espFull needed available) := by
  refine ⟨_, _, if_pos ?_⟩
  rw [Geometry.maxCluster]
  omega

theorem grown_hand_out (geom : Geometry) (b : Builder) (n : Nat) : Grown geom b (handOut geom b n) where
  order := Nat.le_add_right _ _
  imageLength := rfl
  fatLength := length_link_chain _ _ _ _
  image _ _ := rfl
  fat c outside := by
    change (linkChain geom.eoc b.fat (List.range' b.nextFree n))[c]? = _
    change c < b.nextFree ∨ b.nextFree + n ≤ c at outside
    rw [link_chain_get, if_neg (by omega)]

/-- Written to clusters that the builder has handed out meanwhile. -/
theorem Grown.write {b after : Builder} (grown : Grown geom b after) (offset : Nat) (bytes : Bytes)
    (low : geom.clusterOffset b.nextFree ≤ offset)
    (high : offset + bytes.length ≤ geom.clusterOffset after.nextFree) :
    Grown geom b { after with image := put after.image offset bytes } where
  order := grown.order
  imageLength := (length_put _ _ _).trans grown.imageLength
  fatLength := grown.fatLength
  image i outside := by
    change (put after.image offset bytes)[i]? = _
    rw [get_put, if_neg]
    · exact grown.image i outside
    · change i < _ ∨ geom.clusterOffset after.nextFree ≤ i at outside
      omega
  fat := grown.fat

theorem dir_clusters_wide (wide : 0 < geom.clusterBytes) (dir : Dir) (isRoot : Bool) :
    contentSlots dir isRoot * 32 ≤ dirClusters geom dir isRoot * geom.clusterBytes :=
  (le_div_ceil _ _ wide).trans (Nat.mul_le_mul_right _ (Nat.le_max_left _ _))

theorem dir_clusters_pos (geom : Geometry) (dir : Dir) (isRoot : Bool) : 0 < dirClusters geom dir isRoot :=
  Nat.lt_of_lt_of_le Nat.one_pos (Nat.le_max_right _ _)

theorem head_range' (c n : Nat) (some : 0 < n) : (List.range' c n).headD 0 = c := by
  cases n with
  | zero => exact absurd some (Nat.lt_irrefl 0)
  | succ n => rfl

variable {params : Params}

/-- The builder after bytes were written along a chain from a cluster on. -/
def fill (geom : Geometry) (first : Nat) (b : Builder) (bytes : Bytes) : Builder :=
  { b with image := put b.image (geom.clusterOffset first) bytes }

/-- What becomes of a chain that was handed out and then filled: the builder has grown by
it and by what came in between, the bytes are in it, and its links are in the table. -/
structure Filled (geom : Geometry) (b inside : Builder) (n : Nat) (bytes : Bytes) : Prop where
  grown : Grown geom b (fill geom b.nextFree inside bytes)
  padded : Padded (fill geom b.nextFree inside bytes).image (geom.clusterOffset b.nextFree)
    (n * geom.clusterBytes) bytes
  linked : Linked geom.eoc (fill geom b.nextFree inside bytes).fat b.nextFree n
  agree : Agree geom (b.nextFree + n) inside.nextFree inside.image inside.fat
    (fill geom b.nextFree inside bytes).image (fill geom b.nextFree inside bytes).fat

theorem filled_chain {b inside : Builder} {n : Nat} {bytes : Bytes} (ready : Ready geom b)
    (room : b.nextFree + n ≤ geom.clusterCount + 2)
    (grown : Grown geom (handOut geom b n) inside) (fits : bytes.length ≤ n * geom.clusterBytes) :
    Filled geom b inside n bytes := by
  have ends := cluster_offset_add geom b.nextFree n ready.low
  have order := @cluster_mono geom _ _ grown.order
  have last := @cluster_mono geom _ _ room
  have inImage := ready.inside
  have sameLength := grown.imageLength
  change geom.clusterOffset (b.nextFree + n) ≤ _ at order
  change inside.image.length = b.image.length at sameLength
  refine ⟨?_, ?_, ?_, ?_⟩
  · exact ((grown_hand_out geom b n).trans grown).write (geom.clusterOffset b.nextFree) bytes
      (Nat.le_refl _) (by omega)
  · apply padded_put inside.image (geom.clusterOffset b.nextFree) _ bytes (by omega) fits
    intro i after before
    rw [grown.image i (.inl (by change i < geom.clusterOffset (b.nextFree + n); omega))]
    exact ready.zeros i after (by omega)
  · intro i after before
    change inside.fat[i]? = _
    rw [grown.fat i (.inl before)]
    have links := linked_link_chain geom.eoc b.fat b.nextFree n (by rw [ready.entries]; exact room)
    exact links i after before
  · refine ⟨fun i after _ => ?_, fun _ _ _ => rfl⟩
    change (put inside.image (geom.clusterOffset b.nextFree) bytes)[i]? = _
    rw [get_put, if_neg]
    omega

/-- A result that is a value exactly when there is room, and else says that there is none. -/
def Outcome {α : Type} (room : Prop) (result : Except Error α) (value : α → Prop) : Prop :=
  (room ∧ ∃ found, result = .ok found ∧ value found) ∨
    (¬room ∧ ∃ needed available, result = .error (.espFull needed available))

variable (geom params) in
/-- What rendering a child answers: its entries, and a builder that has it stored. -/
structure RenderedNode (b : Builder) (parent : Nat) (plan : Bytes × Option String) (node : Node)
    (found : Bytes × Builder) : Prop where
  bytes : found.1 = longEntries plan.2 plan.1 ++ nodeEntry b.nextFree plan.1 node
  used : found.2.nextFree = b.nextFree + need geom node
  grown : Grown geom b found.2
  stored : StoredNode geom params found.2.image found.2.fat parent b.nextFree node

variable (geom params) in
structure RenderedAll (b : Builder) (parent : Nat) (plan : List (Bytes × Option String)) (dir : Dir)
    (found : Bytes × Builder) : Prop where
  bytes : found.1 = childBytes geom b.nextFree plan dir
  used : found.2.nextFree = b.nextFree + needAll geom dir
  grown : Grown geom b found.2
  stored : StoredAll geom params found.2.image found.2.fat parent b.nextFree dir

theorem render_file (wide : 0 < geom.clusterBytes) (b : Builder) (ready : Ready geom b)
    (parent : Nat) (short : Bytes) (long : Option String) (data : Bytes) :
    Outcome (b.nextFree + need geom (.file data) ≤ geom.clusterCount + 2)
      (renderNode geom params b parent short long (.file data))
      (RenderedNode geom params b parent (short, long) (.file data)) := by
  rw [renderNode, need]
  by_cases none : data = []
  · have zero : fileClusters geom data = 0 := by
      rw [none, fileClusters, divCeil]
      exact Nat.div_eq_of_lt (by change 0 + (geom.clusterBytes - 1) < _; omega)
    left
    rw [if_pos none, zero]
    refine ⟨ready.high, _, rfl, ?_, ?_, Grown.refl b, ?_⟩
    · rw [nodeEntry, if_pos none, none]
      rfl
    · rw [need, zero]
      rfl
    · rw [StoredNode, zero, none]
      exact ⟨List.take_zero, fun i low high => absurd high (by omega)⟩
  · have some : 0 < fileClusters geom data := by
      have fits := le_div_ceil data.length geom.clusterBytes wide
      have nonempty := List.length_pos_iff.mpr none
      rw [fileClusters]
      by_contra zero
      rw [Nat.eq_zero_of_not_pos zero] at fits
      omega
    rw [if_neg none]
    by_cases room : b.nextFree + fileClusters geom data ≤ geom.clusterCount + 2
    · left
      have filled := filled_chain ready room (@Grown.refl geom _)
        (le_div_ceil data.length geom.clusterBytes wide)
      have written := write_clusters_put geom b.image b.nextFree (fileClusters geom data) data
        ready.low (le_div_ceil data.length geom.clusterBytes wide)
      simp only [alloc_chain_ok some room, bind, Except.bind, head_range' _ _ some]
      refine ⟨room, _, rfl, ?_, rfl, ?_, ?_⟩
      · rw [nodeEntry, if_neg none]
      · change Grown geom b ⟨writeClusters geom b.image _ data, _, _⟩
        rw [written]
        exact filled.grown
      · refine ⟨?_, filled.linked⟩
        change slice (writeClusters geom b.image _ data) _ _ = _
        rw [written]
        exact filled.padded.read (le_div_ceil data.length geom.clusterBytes wide)
    · right
      obtain ⟨needed, available, full⟩ := alloc_chain_full room
      exact ⟨room, needed, available, by rw [full]; rfl⟩

/-- A subdirectory, given what becomes of its children. -/
theorem render_dir (wide : 0 < geom.clusterBytes) (b : Builder) (ready : Ready geom b)
    (parent : Nat) (short : Bytes) (long : Option String) (sub : Dir)
    (plan : List (Bytes × Option String)) (made : planChildren sub = some plan)
    (children : ∀ inside, Ready geom inside →
      Outcome (inside.nextFree + needAll geom sub ≤ geom.clusterCount + 2)
        (renderChildren geom params inside b.nextFree plan sub)
        (RenderedAll geom params inside b.nextFree plan sub)) :
    Outcome (b.nextFree + need geom (.dir sub) ≤ geom.clusterCount + 2)
      (renderNode geom params b parent short long (.dir sub))
      (RenderedNode geom params b parent (short, long) (.dir sub)) := by
  have some := dir_clusters_pos geom sub false
  rw [renderNode, need]
  by_cases own : b.nextFree + dirClusters geom sub false ≤ geom.clusterCount + 2
  · have taken : Ready geom (handOut geom b (dirClusters geom sub false)) :=
      ready.grown (grown_hand_out geom b _) own
    have first := head_range' b.nextFree _ some
    have total : b.nextFree + (dirClusters geom sub false + needAll geom sub) =
        (handOut geom b (dirClusters geom sub false)).nextFree + needAll geom sub :=
      (Nat.add_assoc _ _ _).symm
    simp only [alloc_chain_ok some own, bind, Except.bind, first, made]
    rcases children _ taken with ⟨room, ⟨bytes, inside⟩, rendered, result⟩ | ⟨full, needed, available, failed⟩
    · left
      simp only [rendered]
      have length := dir_bytes_length geom params false b.nextFree parent
        (b.nextFree + dirClusters geom sub false) sub plan made
      have fits := dir_clusters_wide wide sub false
      have filled := filled_chain ready own result.grown (length.trans_le fits)
      have written := write_clusters_put geom inside.image b.nextFree (dirClusters geom sub false)
        _ ready.low (length.trans_le fits)
      have same : bytes = childBytes geom (b.nextFree + dirClusters geom sub false) plan sub :=
        result.bytes
      have put : storeDir geom inside (Option.some (List.range' b.nextFree (dirClusters geom sub false)))
          (openingEntries params false b.nextFree parent ++ bytes) =
            fill geom b.nextFree inside (openingEntries params false b.nextFree parent ++ bytes) := by
        rw [storeDir, same, written]
        rfl
      rw [put, same]
      refine ⟨by rw [total]; exact room, _, rfl, rfl, ?_, filled.grown,
        ⟨plan, made, filled.padded⟩, filled.linked, ?_⟩
      · rw [need, total]
        exact result.used
      · have below := result.stored
        change StoredAll geom params inside.image inside.fat b.nextFree
          (b.nextFree + dirClusters geom sub false) sub at below
        apply stored_all_agree sub b.nextFree _ _ inside.nextFree (by have two := ready.low; omega)
          wide (Nat.le_refl _) _ filled.agree below
        rw [result.used]
        exact Nat.le_refl _
    · right
      exact ⟨by rw [total]; exact full, needed, available, by rw [failed]⟩
  · right
    obtain ⟨needed, available, full⟩ := alloc_chain_full own
    exact ⟨by omega, needed, available, by rw [full]; rfl⟩

mutual

/-- A node is rendered exactly when the clusters it needs are left, and then stored. -/
theorem render_node (wide : 0 < geom.clusterBytes) : ∀ (node : Node) (b : Builder) (parent : Nat)
    (short : Bytes) (long : Option String), node.HasFields → Ready geom b →
      Outcome (b.nextFree + need geom node ≤ geom.clusterCount + 2)
        (renderNode geom params b parent short long node)
        (RenderedNode geom params b parent (short, long) node)
  | .file data, b, parent, short, long, _, ready => render_file wide b ready parent short long data
  | .dir sub, b, parent, short, long, fields, ready => by
      obtain ⟨plan, made⟩ := Option.isSome_iff_exists.mp fields.1
      exact render_dir wide b ready parent short long sub plan made fun inside inReady =>
        render_children wide sub inside b.nextFree plan fields.2 (plan_fields_planned made) inReady

theorem render_children (wide : 0 < geom.clusterBytes) : ∀ (dir : Dir) (b : Builder) (parent : Nat)
    (plan : List (Bytes × Option String)), dir.HasFields → List.Forall₂ Planned dir.names plan →
      Ready geom b →
        Outcome (b.nextFree + needAll geom dir ≤ geom.clusterCount + 2)
          (renderChildren geom params b parent plan dir)
          (RenderedAll geom params b parent plan dir)
  | .nil, b, parent, plan, _, planned, ready => by
      cases planned
      exact .inl ⟨ready.high, ([], b), rfl, rfl, rfl, Grown.refl b, trivial⟩
  | .cons key name node rest, b, parent, _, fields, planned, ready => by
      cases planned with
      | @cons _ head _ tail first others =>
          obtain ⟨short, long⟩ := head
          rw [renderChildren, needAll]
          rcases render_node wide node b parent short long fields.1 ready with
            ⟨room, ⟨bytes, middle⟩, rendered, one⟩ | ⟨full, needed, available, failed⟩
          · have used : middle.nextFree = b.nextFree + need geom node := one.used
            have next := ready.grown one.grown (by rw [used]; exact room)
            simp only [rendered, bind, Except.bind]
            rcases render_children wide rest middle parent tail fields.2 others next with
              ⟨room', ⟨more, after⟩, rendered', all⟩ | ⟨full, needed, available, failed⟩
            · left
              simp only [rendered']
              refine ⟨by omega, _, rfl, ?_, ?_, one.grown.trans all.grown, ?_, ?_⟩
              · have left := one.bytes
                have right := all.bytes
                simp only [used] at left right
                rw [childBytes, ← left, right]
              · have total := all.used
                simp only at total
                rw [needAll, total, used]
                omega
              · apply stored_node_agree node parent b.nextFree b.nextFree middle.nextFree ready.low
                  wide (Nat.le_refl _) (by omega) (all.grown.agree b.nextFree) one.stored
              · have stored := all.stored
                rw [used] at stored
                exact stored
            · right
              exact ⟨by omega, needed, available, by rw [failed]⟩
          · right
            exact ⟨by omega, needed, available, by rw [failed]; rfl⟩

end

end Render

end HorizonOs.Keybuild.Fat
