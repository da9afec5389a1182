import HorizonOs.Keybuild.FatChecked
import HorizonOs.Keybuild.FatVolume

/-!
# Sizes on which the writer stays in range

From 35 sectors on, and at 33, every subtraction of the geometry is in range, and
while the clusters have numbers of their type so is every offset the writer
computes and every slice it takes: the checked writer is the plain one.
-/

namespace HorizonOs.Keybuild.Fat

open HorizonOs.Lib.ByteCodec HorizonOs.Lib.Buffer HorizonOs.Lib.Text HorizonOs.Lib.Machine
open HorizonOs.Lib.Utf16

set_option autoImplicit false

/-! ## The geometry -/

theorem checked_fat_size (n spc reserved rootDir : Nat) (fatType : FatType)
    (front : reserved + rootDir ≤ n) (word : n < 2 ^ 55) (size : spc ≤ 64) :
    Checked.fatSizeSectors n spc numFats reserved rootDir fatType =
      .ok (fatSizeSectors n spc numFats reserved rootDir fatType) := by
  have overhead : reserved + rootDir < 2 ^ 64 := by omega
  have entries : 256 * spc < 2 ^ 64 := by omega
  have both : 256 * spc + numFats < 2 ^ 64 := by
    rw [numFats]
    omega
  simp only [Checked.fatSizeSectors, checked_add_ok overhead, checked_sub_ok front,
    checked_mul_ok entries, checked_add_ok both, bind, Except.bind]
  rfl

/-- The bounds the FAT16 geometry keeps: the front of the volume fits in it. -/
theorem fat16_front (n spc : Nat)
    (size : spc = 1 ∨ spc = 2 ∨ spc = 4 ∨ spc = 8 ∨ spc = 16 ∨ spc = 32 ∨ spc = 64)
    (room : n = 33 ∨ 35 ≤ n) :
    1 + 2 * ((n - (1 + 32) + (256 * spc + 2 - 1)) / (256 * spc + 2)) + 32 ≤ n := by
  rcases size with rfl | rfl | rfl | rfl | rfl | rfl | rfl <;> omega

theorem checked_fat16 (n spc : Nat) (size : spc ∈ [1, 2, 4, 8, 16, 32, 64])
    (room : n = 33 ∨ 35 ≤ n) (word : n < 2 ^ 55) :
    Checked.fat16Geometry n spc = .ok (fat16Geometry n spc) := by
  have sizes : spc = 1 ∨ spc = 2 ∨ spc = 4 ∨ spc = 8 ∨ spc = 16 ∨ spc = 32 ∨ spc = 64 := by
    simpa using size
  have small : spc ≤ 64 := by omega
  have front := fat16_front n spc sizes room
  have least : 1 + fat16RootDirSectors ≤ n := by
    change 1 + 32 ≤ n
    omega
  set fat := fatSizeSectors n spc numFats 1 fat16RootDirSectors .fat16 with fatDef
  have fits : 1 + numFats * fat + fat16RootDirSectors ≤ n := front
  have fats : numFats * fat < 2 ^ 64 := by omega
  have first : 1 + numFats * fat < 2 ^ 64 := by omega
  have both : 1 + numFats * fat + fat16RootDirSectors < 2 ^ 64 := by omega
  simp only [Checked.fat16Geometry, checked_fat_size n spc 1 fat16RootDirSectors .fat16 least word
    small, ← fatDef, checked_mul_ok fats, checked_add_ok first, checked_add_ok both,
    checked_sub_ok fits, bind, Except.bind]
  rfl

theorem fat32_front (n spc : Nat) (size : spc = 1 ∨ spc = 2 ∨ spc = 8) (large : 64 * 2048 ≤ n) :
    32 + 2 * ((n - (32 + 0) + ((256 * spc + 2) / 2 - 1)) / ((256 * spc + 2) / 2)) ≤ n := by
  rcases size with rfl | rfl | rfl <;> omega

theorem checked_fat32 (n : Nat) (large : 64 * 2048 ≤ n) (word : n < 2 ^ 55) :
    Checked.fat32Geometry n = .ok (fat32Geometry n) := by
  have sizes : fat32Spc n = 1 ∨ fat32Spc n = 2 ∨ fat32Spc n = 8 := by
    simp only [fat32Spc]
    split_ifs <;> simp
  have small : fat32Spc n ≤ 64 := by omega
  have front := fat32_front n (fat32Spc n) sizes large
  have least : 32 + 0 ≤ n := by omega
  set fat := fatSizeSectors n (fat32Spc n) numFats 32 0 .fat32 with fatDef
  have fits : 32 + numFats * fat ≤ n := front
  have fats : numFats * fat < 2 ^ 64 := by omega
  have both : 32 + numFats * fat < 2 ^ 64 := by omega
  simp only [Checked.fat32Geometry, checked_fat_size n _ 32 0 .fat32 least word small, ← fatDef,
    checked_mul_ok fats, checked_add_ok both, checked_sub_ok fits, bind, Except.bind]
  rfl

theorem checked_fat16_search (n : Nat) (room : n = 33 ∨ 35 ≤ n) (word : n < 2 ^ 55)
    (sizes : List Nat) (known : sizes ⊆ [1, 2, 4, 8, 16, 32, 64]) :
    Checked.fat16Search n sizes = refusing .refused (fat16Search n sizes) := by
  induction sizes with
  | nil =>
      have bytes : n * sector < 2 ^ 64 := by
        rw [sector]
        omega
      simp only [Checked.fat16Search, checked_mul_ok bytes, bind, Except.bind]
      rfl
  | cons spc rest ih =>
      have first := checked_fat16 n spc (known List.mem_cons_self) room word
      have others := ih fun _ member => known (List.mem_cons_of_mem _ member)
      simp only [Checked.fat16Search, fat16Search, first, bind, Except.bind]
      split
      · rfl
      · exact others

/-- In range, the checked geometry is the plain one. -/
theorem checked_geometry (n : Nat) (room : n = 33 ∨ 35 ≤ n) (word : n < 2 ^ 55) :
    Checked.geometry n = refusing .refused (geometry n) := by
  rw [Checked.geometry, geometry]
  split
  case isTrue large =>
    rw [checked_fat32 n large word]
    rfl
  case isFalse => exact checked_fat16_search n room word _ fun _ member => member

/-- On the sizes below, a subtraction of the geometry is out of range. -/
theorem checked_geometry_fault (n : Nat) (tight : n < 33 ∨ n = 34) :
    Checked.geometry n = .error .fault := by
  have small : ¬64 * 2048 ≤ n := by omega
  have first : Checked.fat16Geometry n 1 = .error .fault := by
    rcases tight with low | rfl
    · have short : n < 1 + fat16RootDirSectors := low
      have overhead : 1 + fat16RootDirSectors < 2 ^ 64 := by decide
      simp only [Checked.fat16Geometry, Checked.fatSizeSectors, checked_add_ok overhead,
        checked_sub_fault short, bind, Except.bind]
    · rfl
  rw [Checked.geometry, if_neg small, Checked.fat16Search, first]
  rfl

/-! ## What is in range of a volume -/

/-- A geometry laid out in its volume, small enough that all its offsets are words and its
clusters have 32-bit numbers. -/
structure InRange (geom : Geometry) (totalBytes : Nat) : Prop where
  laid : Laid geom totalBytes
  word : totalBytes < 2 ^ 50
  wide : sector ≤ geom.clusterBytes
  narrow : geom.clusterBytes ≤ 2 ^ 15
  some : 0 < geom.clusterCount
  few : geom.clusterCount + 2 < 2 ^ 32
  root : geom.fatType = .fat16 → geom.rootEntries * 32 = geom.rootDirSectors * sector

/-- The buffers of a builder have their sizes, and its next cluster is one of the volume's
or the first beyond. -/
structure Held (geom : Geometry) (totalBytes : Nat) (b : Builder) : Prop where
  image : b.image.length = totalBytes
  entries : b.fat.length = geom.clusterCount + 2
  low : 2 ≤ b.nextFree
  high : b.nextFree ≤ geom.clusterCount + 2

section Volume

variable {geom : Geometry} {totalBytes : Nat}

theorem checked_cluster_bytes (range : InRange geom totalBytes) :
    Checked.clusterBytes geom = .ok geom.clusterBytes := by
  have narrow := range.narrow
  rw [Geometry.clusterBytes] at narrow
  exact checked_mul_ok (by omega)

theorem checked_root_start (range : InRange geom totalBytes) :
    Checked.rootStartSector geom = .ok geom.rootStartSector ∧
      geom.rootStartSector * sector ≤ totalBytes := by
  have within := range.laid.within
  have word := range.word
  simp only [Geometry.dataStartSector, Geometry.rootStartSector, sector] at within ⊢
  have fats : geom.numFats * geom.fatSize < 2 ^ 64 := by omega
  have both : geom.reservedSectors + geom.numFats * geom.fatSize < 2 ^ 64 := by omega
  constructor
  · rw [Checked.rootStartSector, Checked.mul64, checked_mul_ok fats]
    exact checked_add_ok both
  · apply Nat.le_trans _ within
    apply Nat.mul_le_mul_right
    rw [Nat.add_assoc]
    exact Nat.le_add_right _ _

theorem checked_cluster_offset (range : InRange geom totalBytes) (c : Nat) (low : 2 ≤ c)
    (high : c < 2 + geom.clusterCount) :
    Checked.clusterOffset geom c = .ok (geom.clusterOffset c) := by
  obtain ⟨root, _⟩ := checked_root_start range
  have inside := cluster_inside range.laid c low high
  have word := range.word
  simp only [Geometry.clusterOffset, Geometry.dataStartSector, sector] at inside ⊢
  have start : geom.rootStartSector + geom.rootDirSectors < 2 ^ 64 := by omega
  have skipped : (c - 2) * geom.sectorsPerCluster < 2 ^ 64 := by omega
  have first : geom.rootStartSector + geom.rootDirSectors + (c - 2) * geom.sectorsPerCluster <
      2 ^ 64 := by
    omega
  have offset : (geom.rootStartSector + geom.rootDirSectors +
      (c - 2) * geom.sectorsPerCluster) * 512 < 2 ^ 64 := by
    omega
  simp only [Checked.clusterOffset, Checked.dataStartSector, root, checked_add_ok start,
    checked_sub_ok low, checked_mul_ok skipped, checked_add_ok first, sector,
    checked_mul_ok offset, bind, Except.bind]

/-! ### Chains -/

theorem length_write_clusters (image : Bytes) (chain : List Nat) (data : Bytes) :
    (writeClusters geom image chain data).length = image.length := by
  induction chain generalizing image data with
  | nil => rfl
  | cons c chain ih =>
      rw [writeClusters]
      split_ifs
      · rfl
      · rw [ih, length_put]

/-- Along clusters of the volume every write is in range. -/
theorem checked_write (range : InRange geom totalBytes) (data : Bytes) (chain : List Nat)
    (i : Nat) (image : Bytes) (size : image.length = totalBytes)
    (known : ∀ c ∈ chain, 2 ≤ c ∧ c < 2 + geom.clusterCount) (short : i + chain.length ≤ 2 ^ 32) :
    Checked.writeClusters geom data i image chain =
      .ok (writeClusters geom image chain (data.drop (i * geom.clusterBytes))) := by
  induction chain generalizing i image with
  | nil => rfl
  | cons c chain ih =>
      obtain ⟨low, high⟩ := known c List.mem_cons_self
      rw [List.length_cons] at short
      have narrow := range.narrow
      have start : i * geom.clusterBytes ≤ 2 ^ 32 * 2 ^ 15 := Nat.mul_le_mul (by omega) narrow
      have started : i * geom.clusterBytes < 2 ^ 64 := by omega
      have stopped : i * geom.clusterBytes + geom.clusterBytes < 2 ^ 64 := by omega
      have inside := cluster_inside range.laid c low high
      simp only [Checked.writeClusters, checked_cluster_bytes range,
        checked_cluster_offset range c low high, checked_mul_ok started, bind, Except.bind]
      rw [writeClusters]
      by_cases past : data.length ≤ i * geom.clusterBytes
      · have none : data.drop (i * geom.clusterBytes) = [] := List.drop_eq_nil_of_le past
        rw [if_pos past, if_pos none]
      · have some : data.drop (i * geom.clusterBytes) ≠ [] := by
          intro none
          rw [List.drop_eq_nil_iff] at none
          exact past none
        have wide := range.wide
        have order : i * geom.clusterBytes ≤
            min (i * geom.clusterBytes + geom.clusterBytes) data.length := by
          omega
        have piece : slice data (i * geom.clusterBytes)
            (min (i * geom.clusterBytes + geom.clusterBytes) data.length - i * geom.clusterBytes) =
              (data.drop (i * geom.clusterBytes)).take geom.clusterBytes := by
          rw [slice, List.take_eq_take_iff, List.length_drop]
          omega
        have fits : geom.clusterOffset c +
            ((data.drop (i * geom.clusterBytes)).take geom.clusterBytes).length ≤ image.length := by
          rw [List.length_take, size]
          omega
        rw [if_neg past, if_neg some]
        simp only [checked_add_ok stopped, checked_sub_ok order, piece, checked_put_ok fits]
        rw [ih (i + 1) _ (by rw [length_put, size])
          (fun c member => known c (List.mem_cons_of_mem _ member)) (by omega), List.drop_drop,
          Nat.succ_mul]

theorem checked_link_chain (eoc : Nat) (fat chain : List Nat)
    (known : ∀ c ∈ chain, c < fat.length) :
    Checked.linkChain eoc fat chain = .ok (linkChain eoc fat chain) := by
  induction chain generalizing fat with
  | nil => rfl
  | cons c rest ih =>
      have here := known c List.mem_cons_self
      cases rest with
      | nil => exact checked_set_ok here
      | cons next more =>
          simp only [Checked.linkChain, linkChain, checked_set_ok here, bind, Except.bind]
          apply ih
          intro d member
          rw [List.length_set]
          exact known d (List.mem_cons_of_mem _ member)

/-- A chain that is handed out is in a row, and the builder stays held. -/
theorem alloc_held (b after : Builder) (held : Held geom totalBytes b) (n : Nat)
    (chain : List Nat) (taken : allocChain geom b n = .ok (chain, after)) :
    0 < n ∧ b.nextFree + n ≤ geom.clusterCount + 2 ∧ chain = List.range' b.nextFree n ∧
      Held geom totalBytes after := by
  by_cases full : n = 0 ∨ geom.maxCluster < b.nextFree + n - 1
  · rw [allocChain, if_pos full] at taken
    contradiction
  · have some : 0 < n := by omega
    have low := held.low
    have room : b.nextFree + n ≤ geom.clusterCount + 2 := by
      rw [Geometry.maxCluster] at full
      omega
    rw [alloc_chain_ok some room] at taken
    cases taken
    refine ⟨some, room, rfl, held.image, ?_, ?_, room⟩
    · exact (length_link_chain _ _ _ _).trans held.entries
    · change 2 ≤ b.nextFree + n
      omega

theorem checked_alloc (range : InRange geom totalBytes) (b : Builder)
    (held : Held geom totalBytes b) (n : Nat) (small : n < 2 ^ 62) :
    Checked.allocChain geom b n = refusing .refused (allocChain geom b n) := by
  have few := range.few
  have low := held.low
  have high := held.high
  have stop : b.nextFree + n < 2 ^ 64 := by omega
  have last : 1 ≤ b.nextFree + n := by omega
  have max : geom.clusterCount + 1 < 2 ^ 64 := by omega
  have full : Checked.isFull geom b n =
      .ok (decide (n = 0 ∨ geom.maxCluster < b.nextFree + n - 1)) := by
    rw [Checked.isFull]
    by_cases none : n = 0
    · simp [none]
    · simp only [none, if_false, Checked.maxCluster, checked_add_ok stop, checked_sub_ok last,
        checked_add_ok max, bind, Except.bind, false_or]
      rfl
  rw [Checked.allocChain, full, allocChain]
  by_cases taken : n = 0 ∨ geom.maxCluster < b.nextFree + n - 1
  · have needed : b.nextFree - 2 + n < 2 ^ 64 := by omega
    simp only [taken, decide_true, if_true, checked_sub_ok low, checked_add_ok needed, bind,
      Except.bind]
    rfl
  · have room : b.nextFree + n ≤ geom.clusterCount + 2 := by
      rw [Geometry.maxCluster] at taken
      omega
    have cast : n % 2 ^ 32 = n := Nat.mod_eq_of_lt (by omega)
    have word : b.nextFree + n < 2 ^ 32 := by omega
    have links := checked_link_chain geom.eoc b.fat (List.range' b.nextFree n) (by
      intro c member
      have bounds := List.mem_range'_1.mp member
      rw [held.entries]
      omega)
    simp only [taken, decide_false, Bool.false_eq_true, if_false, cast, checked_add_ok word, links,
      bind, Except.bind]
    rfl

end Volume

/-! ## Trees in memory -/

mutual

/-- Less than the bytes a tree takes up in memory: the data of its files, and for each
name its characters and the fixed part of its entry. -/
def Node.footprint : Node → Nat
  | .file data => data.length
  | .dir sub => Dir.footprint sub

def Dir.footprint : Dir → Nat
  | .nil => 0
  | .cons _ name node rest => 72 + name.length + node.footprint + Dir.footprint rest

end

/-- No address space is larger than this. -/
def Dir.InMemory (dir : Dir) : Prop := dir.footprint < 2 ^ 60

theorem encode_utf16_length_le (text : String) : (encodeUtf16 text).length ≤ 2 * text.length := by
  have chars : ∀ chars : List Char, (chars.flatMap encodeChar).length ≤ 2 * chars.length := by
    intro chars
    induction chars with
    | nil => exact Nat.le_refl 0
    | cons c chars ih =>
        have first := encode_char_length_le c
        rw [List.flatMap_cons, List.length_append, List.length_cons]
        omega
  have all := chars text.toList
  rw [String.length_toList] at all
  exact all

theorem lfn_slots_le (name : String) : 4 * (1 + lfnSlots name) ≤ 72 + name.length := by
  have units := encode_utf16_length_le name
  rw [lfnSlots]
  split <;> omega

theorem names_slots_le (dir : Dir) :
    4 * (dir.names.map fun name => 1 + lfnSlots name).sum ≤ dir.footprint := by
  induction dir using Dir.names.induct with
  | case1 => exact Nat.le_refl 0
  | case2 _ name node rest others =>
      have first := lfn_slots_le name
      rw [Dir.names, List.map_cons, List.sum_cons, Dir.footprint]
      omega

theorem checked_slots (dir : Dir) (isRoot : Bool) (inMemory : dir.InMemory) :
    Checked.contentSlots dir isRoot = .ok (contentSlots dir isRoot) ∧
      contentSlots dir isRoot * 32 < 2 ^ 64 := by
  have bound := names_slots_le dir
  have sum : ∀ (names : List String) (before : Nat),
      before + (names.map fun name => 1 + lfnSlots name).sum < 2 ^ 64 →
      names.foldlM (fun sum name => do
          let child ← Checked.add64 1 (lfnSlots name)
          Checked.add64 sum child) before =
        .ok (before + (names.map fun name => 1 + lfnSlots name).sum) := by
    intro names
    induction names with
    | nil => exact fun _ _ => rfl
    | cons name names ih =>
        intro before word
        rw [List.map_cons, List.sum_cons] at word ⊢
        have child : 1 + lfnSlots name < 2 ^ 64 := by omega
        have both : before + (1 + lfnSlots name) < 2 ^ 64 := by omega
        have more := ih (before + (1 + lfnSlots name)) (by omega)
        rw [List.foldlM_cons, Checked.add64, checked_add_ok child]
        change Checked.add64 before (1 + lfnSlots name) >>= _ = _
        rw [Checked.add64, checked_add_ok both]
        change List.foldlM _ _ _ = _
        rw [more, Nat.add_assoc]
  rw [Dir.InMemory] at inMemory
  have total := sum dir.names 0 (by omega)
  rw [Nat.zero_add] at total
  have base : (if isRoot then 1 else 2) ≤ 2 := by
    split <;> omega
  constructor
  · rw [Checked.contentSlots, total]
    exact checked_add_ok (by omega)
  · rw [contentSlots]
    omega

/-! ## Rendering in range -/

section Render

variable {geom : Geometry} {totalBytes : Nat} {params : Params}

theorem checked_dir_clusters (range : InRange geom totalBytes) (dir : Dir) (isRoot : Bool)
    (inMemory : dir.InMemory) :
    Checked.dirClusters geom dir isRoot = .ok (dirClusters geom dir isRoot) ∧
      dirClusters geom dir isRoot < 2 ^ 62 := by
  obtain ⟨slots, word⟩ := checked_slots dir isRoot inMemory
  constructor
  · simp only [Checked.dirClusters, slots, checked_mul_ok word, checked_cluster_bytes range, bind,
      Except.bind]
    rfl
  · have wide := range.wide
    have narrow := range.narrow
    have fewer : divCeil (contentSlots dir isRoot * 32) geom.clusterBytes ≤
        (contentSlots dir isRoot * 32 + (geom.clusterBytes - 1)) / 512 :=
      Nat.div_le_div_left wide (by decide)
    rw [dirClusters]
    omega

theorem checked_file_clusters (range : InRange geom totalBytes) (data : Bytes)
    (short : data.length < 2 ^ 60) : fileClusters geom data < 2 ^ 62 := by
  have narrow := range.narrow
  have fewer : fileClusters geom data ≤ data.length + (geom.clusterBytes - 1) := Nat.div_le_self _ _
  omega

/-- Data written along a chain that was handed out. -/
theorem checked_write_chain (range : InRange geom totalBytes) (b : Builder)
    (held : Held geom totalBytes b) (first n : Nat) (low : 2 ≤ first)
    (room : first + n ≤ geom.clusterCount + 2) (data : Bytes) :
    Checked.writeClusters geom data 0 b.image (List.range' first n) =
        .ok (writeClusters geom b.image (List.range' first n) data) ∧
      Held geom totalBytes
        { b with image := writeClusters geom b.image (List.range' first n) data } := by
  have few := range.few
  have known : ∀ c ∈ List.range' first n, 2 ≤ c ∧ c < 2 + geom.clusterCount := by
    intro c member
    have bounds := List.mem_range'_1.mp member
    omega
  have short : 0 + (List.range' first n).length ≤ 2 ^ 32 := by
    rw [List.length_range']
    omega
  have written := checked_write range data (List.range' first n) 0 b.image held.image known short
  rw [Nat.zero_mul, List.drop_zero] at written
  exact ⟨written, (length_write_clusters _ _ _).trans held.image, held.entries, held.low, held.high⟩

theorem checked_store_chain (range : InRange geom totalBytes) (b : Builder)
    (held : Held geom totalBytes b) (first n : Nat) (low : 2 ≤ first)
    (room : first + n ≤ geom.clusterCount + 2) (buf : Bytes) :
    Checked.storeDir geom b (some (List.range' first n)) buf =
        .ok (storeDir geom b (some (List.range' first n)) buf) ∧
      Held geom totalBytes (storeDir geom b (some (List.range' first n)) buf) := by
  obtain ⟨written, kept⟩ := checked_write_chain range b held first n low room buf
  refine ⟨?_, kept⟩
  simp only [Checked.storeDir, written, bind, Except.bind]
  rfl

/-- A buffer of the fixed root region. -/
theorem checked_store_root (range : InRange geom totalBytes) (b : Builder)
    (held : Held geom totalBytes b) (buf : Bytes)
    (fits : buf.length ≤ geom.rootDirSectors * sector) :
    Checked.storeDir geom b none buf = .ok (storeDir geom b none buf) ∧
      Held geom totalBytes (storeDir geom b none buf) := by
  obtain ⟨root, inside⟩ := checked_root_start range
  have word := range.word
  have offset : geom.rootStartSector * sector < 2 ^ 64 := by omega
  have within := range.laid.within
  have region : geom.rootStartSector * sector + geom.rootDirSectors * sector ≤ totalBytes := by
    rw [← Nat.add_mul]
    apply Nat.le_trans _ within
    exact Nat.mul_le_mul_right _ (Nat.le_add_right _ _)
  have written : geom.rootStartSector * sector + buf.length ≤ b.image.length := by
    rw [held.image]
    omega
  constructor
  · simp only [Checked.storeDir, root, checked_mul_ok offset, checked_put_ok written, bind,
      Except.bind]
    rfl
  · exact ⟨(length_put _ _ _).trans held.image, held.entries, held.low, held.high⟩

theorem checked_head (first n : Nat) (some : 0 < n) :
    checkedHead Stop.fault (List.range' first n) = .ok ((List.range' first n).headD 0) := by
  cases n with
  | zero => contradiction
  | succ n => rfl

/-- What rendering in range comes to: the plain result, with a builder that is held and
entries of this length where there is one. -/
def Renders (geom : Geometry) (totalBytes size : Nat) (checked : Except Stop (Bytes × Builder))
    (plain : Except Error (Bytes × Builder)) : Prop :=
  checked = refusing .refused plain ∧
    ∀ found, plain = .ok found → Held geom totalBytes found.2 ∧ found.1.length = size

theorem renders_refused {size : Nat} (error : Error) :
    Renders geom totalBytes size (.error (.refused error)) (.error error) :=
  ⟨rfl, fun found impossible => by cases impossible⟩

theorem renders_ok {size : Nat} (bytes : Bytes) (b : Builder) (held : Held geom totalBytes b)
    (length : bytes.length = size) : Renders geom totalBytes size (.ok (bytes, b)) (.ok (bytes, b)) := by
  refine ⟨rfl, ?_⟩
  intro found same
  cases same
  exact ⟨held, length⟩

theorem renders_file (range : InRange geom totalBytes) (b : Builder)
    (held : Held geom totalBytes b) (parent : Nat) (short : Bytes) (long : Option String)
    (data : Bytes) (small : data.length < 2 ^ 60) :
    Renders geom totalBytes ((longEntries long short).length + 32)
      (Checked.renderNode geom params b parent short long (.file data))
      (renderNode geom params b parent short long (.file data)) := by
  have length : ∀ first size, (longEntries long short ++ entry short first size attrArchive).length =
      (longEntries long short).length + 32 := by
    intro first size
    rw [List.length_append, length_entry]
  rw [Checked.renderNode, renderNode]
  by_cases none : data = []
  · rw [if_pos none, if_pos none]
    exact renders_ok _ b held (length 0 0)
  · rw [if_neg none, if_neg none, checked_cluster_bytes range]
    change Renders _ _ _ (Checked.allocChain geom b (fileClusters geom data) >>= _) _
    rw [checked_alloc range b held (fileClusters geom data) (checked_file_clusters range data small)]
    cases taken : allocChain geom b (fileClusters geom data) with
    | error error => exact renders_refused error
    | ok allocated =>
        obtain ⟨chain, after⟩ := allocated
        obtain ⟨some, room, rfl, heldAfter⟩ := alloc_held b after held _ chain taken
        obtain ⟨written, kept⟩ := checked_write_chain range after heldAfter b.nextFree
          (fileClusters geom data) held.low room data
        simp only [refusing, bind, Except.bind, written,
          checked_head b.nextFree (fileClusters geom data) some]
        exact renders_ok _ _ kept (length _ _)

/-- A subdirectory, given what becomes of its children. -/
theorem renders_dir (range : InRange geom totalBytes) (b : Builder)
    (held : Held geom totalBytes b) (parent : Nat) (short : Bytes) (long : Option String)
    (sub : Dir) (inMemory : sub.InMemory)
    (children : ∀ inside plan first, Held geom totalBytes inside → planChildren sub = some plan →
      Renders geom totalBytes ((sub.names.map fun name => 1 + lfnSlots name).sum * 32)
        (Checked.renderChildren geom params inside first plan sub)
        (renderChildren geom params inside first plan sub)) :
    Renders geom totalBytes ((longEntries long short).length + 32)
      (Checked.renderNode geom params b parent short long (.dir sub))
      (renderNode geom params b parent short long (.dir sub)) := by
  obtain ⟨clusters, small⟩ := checked_dir_clusters range sub false inMemory
  rw [Checked.renderNode, renderNode, clusters]
  change Renders _ _ _ (Checked.allocChain geom b (dirClusters geom sub false) >>= _) _
  rw [checked_alloc range b held _ small]
  cases taken : allocChain geom b (dirClusters geom sub false) with
  | error error => exact renders_refused error
  | ok allocated =>
      obtain ⟨chain, after⟩ := allocated
      obtain ⟨some, room, rfl, heldAfter⟩ := alloc_held b after held _ chain taken
      simp only [refusing, bind, Except.bind, checked_head b.nextFree _ some]
      cases planned : planChildren sub with
      | none => exact renders_refused .panicked
      | some plan =>
          obtain ⟨same, inside⟩ := children after plan
            ((List.range' b.nextFree (dirClusters geom sub false)).headD 0) heldAfter planned
          simp only [same]
          cases rendered : renderChildren geom params after
              ((List.range' b.nextFree (dirClusters geom sub false)).headD 0) plan sub with
          | error error => exact renders_refused error
          | ok found =>
              obtain ⟨bytes, later⟩ := found
              obtain ⟨heldLater, _⟩ := inside _ rendered
              obtain ⟨stored, kept⟩ := checked_store_chain range later heldLater b.nextFree _
                held.low room (openingEntries params false
                  ((List.range' b.nextFree (dirClusters geom sub false)).headD 0) parent ++ bytes)
              simp only [refusing, stored]
              apply renders_ok _ _ kept
              rw [List.length_append, length_entry]

mutual

theorem renders_node (range : InRange geom totalBytes) : ∀ (node : Node) (b : Builder)
    (parent : Nat) (short : Bytes) (long : Option String), Held geom totalBytes b →
      node.footprint < 2 ^ 60 →
        Renders geom totalBytes ((longEntries long short).length + 32)
          (Checked.renderNode geom params b parent short long node)
          (renderNode geom params b parent short long node)
  | .file data, b, parent, short, long, held, small =>
      renders_file range b held parent short long data small
  | .dir sub, b, parent, short, long, held, small =>
      renders_dir range b held parent short long sub small fun inside plan first heldInside planned =>
        renders_children range sub inside first plan heldInside small (plan_fields_planned planned)

theorem renders_children (range : InRange geom totalBytes) : ∀ (dir : Dir) (b : Builder)
    (parent : Nat) (plan : List (Bytes × Option String)), Held geom totalBytes b →
      dir.footprint < 2 ^ 60 → List.Forall₂ Planned dir.names plan →
        Renders geom totalBytes ((dir.names.map fun name => 1 + lfnSlots name).sum * 32)
          (Checked.renderChildren geom params b parent plan dir)
          (renderChildren geom params b parent plan dir)
  | .nil, b, parent, plan, held, _, planned => by
      cases planned
      exact renders_ok [] b held rfl
  | .cons key name node rest, b, parent, _, held, small, planned => by
      rw [Dir.footprint] at small
      cases planned with
      | @cons _ head _ tail first others =>
          obtain ⟨short, long⟩ := head
          obtain ⟨same, inside⟩ := renders_node range node b parent short long held (by omega)
          rw [Checked.renderChildren, renderChildren, same]
          cases rendered : renderNode geom params b parent short long node with
          | error error => exact renders_refused error
          | ok found =>
              obtain ⟨bytes, middle⟩ := found
              obtain ⟨heldMiddle, length⟩ := inside _ rendered
              obtain ⟨same', inside'⟩ :=
                renders_children range rest middle parent tail heldMiddle (by omega) others
              simp only [refusing, bind, Except.bind, same']
              cases rendered' : renderChildren geom params middle parent tail rest with
              | error error => exact renders_refused error
              | ok found' =>
                  obtain ⟨more, after⟩ := found'
                  obtain ⟨heldAfter, length'⟩ := inside' _ rendered'
                  apply renders_ok _ _ heldAfter
                  have own := long_entries_length first
                  dsimp only at length length' own
                  rw [List.length_append, length, length', own, Dir.names, List.map_cons,
                    List.sum_cons]
                  omega

end

/-- The same, for results that are builders. -/
def Builds (geom : Geometry) (totalBytes : Nat) (checked : Except Stop Builder)
    (plain : Except Error Builder) : Prop :=
  checked = refusing .refused plain ∧ ∀ b, plain = .ok b → Held geom totalBytes b

theorem builds_refused (error : Error) :
    Builds geom totalBytes (.error (.refused error)) (.error error) :=
  ⟨rfl, fun b impossible => by cases impossible⟩

theorem builds_ok (b : Builder) (held : Held geom totalBytes b) :
    Builds geom totalBytes (.ok b) (.ok b) := by
  refine ⟨rfl, ?_⟩
  intro other same
  cases same
  exact held

/-- A directory is rendered where its storage takes all its entries. -/
theorem builds_dir (range : InRange geom totalBytes) (b : Builder)
    (held : Held geom totalBytes b) (chain : Option (List Nat)) (self parent : Nat)
    (isRoot : Bool) (dir : Dir) (inMemory : dir.InMemory)
    (stores : ∀ later buf, Held geom totalBytes later →
      buf.length = contentSlots dir isRoot * 32 →
        Checked.storeDir geom later chain buf = .ok (storeDir geom later chain buf) ∧
          Held geom totalBytes (storeDir geom later chain buf)) :
    Builds geom totalBytes (Checked.renderDir geom params b chain self parent isRoot dir)
      (renderDir geom params b chain self parent isRoot dir) := by
  rw [Checked.renderDir, renderDir]
  cases planned : planChildren dir with
  | none => exact builds_refused .panicked
  | some plan =>
      obtain ⟨same, inside⟩ := @renders_children _ _ params range dir b
        (if isRoot then 0 else self) plan held inMemory (plan_fields_planned planned)
      simp only [same, bind, Except.bind]
      cases rendered : renderChildren geom params b (if isRoot then 0 else self) plan dir with
      | error error => exact builds_refused error
      | ok found =>
          obtain ⟨bytes, later⟩ := found
          obtain ⟨heldLater, length⟩ := inside _ rendered
          obtain ⟨stored, kept⟩ := stores later
            (openingEntries params isRoot self parent ++ bytes) heldLater (by
              dsimp only at length
              rw [List.length_append, opening_length, length, contentSlots, Nat.add_mul])
          simp only [refusing, stored]
          exact builds_ok _ kept

theorem builds_root (range : InRange geom totalBytes) (b : Builder)
    (held : Held geom totalBytes b) (root : Dir) (inMemory : root.InMemory) :
    Builds geom totalBytes (Checked.renderRoot geom params b root)
      (renderRoot geom params b root) := by
  rw [Checked.renderRoot, renderRoot]
  cases kind : geom.fatType with
  | fat16 =>
      obtain ⟨slots, _⟩ := checked_slots root true inMemory
      simp only [slots, bind, Except.bind]
      split
      · exact builds_refused _
      case isFalse room =>
        apply builds_dir range b held none 0 0 true root inMemory
        intro later buf heldLater length
        apply checked_store_root range later heldLater buf
        rw [length, ← range.root kind]
        exact Nat.mul_le_mul_right _ (Nat.not_lt.mp room)
  | fat32 =>
      obtain ⟨clusters, small⟩ := checked_dir_clusters range root true inMemory
      simp only [clusters, bind, Except.bind, checked_alloc range b held _ small]
      cases taken : allocChain geom b (dirClusters geom root true) with
      | error error => exact builds_refused error
      | ok allocated =>
          obtain ⟨chain, after⟩ := allocated
          obtain ⟨some, room, rfl, heldAfter⟩ := alloc_held b after held _ chain taken
          simp only [refusing, checked_head b.nextFree _ some]
          apply builds_dir range after heldAfter _ fat32RootCluster 0 true root inMemory
          intro later buf heldLater _
          exact checked_store_chain range later heldLater b.nextFree _ held.low room buf

/-! ### The table and the sectors in front -/

set_option maxRecDepth 2000 in
/-- A copy of the table ends within the volume, whether it has room or not. -/
theorem copy_inside (range : InRange geom totalBytes) (i : Nat) (copies : i < 2) :
    (geom.fatStartSector + i * geom.fatSize) * sector +
      (geom.clusterCount + 2) * geom.fatType.width ≤ totalBytes := by
  have within := range.laid.within
  have wide := range.wide
  have some := range.some
  have width : geom.fatType.width ≤ 4 := by
    cases geom.fatType <;> decide
  have table : (geom.clusterCount + 2) * geom.fatType.width ≤ (geom.clusterCount + 2) * 4 :=
    Nat.mul_le_mul_left _ width
  have clusters : geom.clusterCount * sector ≤
      geom.clusterCount * geom.sectorsPerCluster * sector := by
    rw [Nat.mul_assoc]
    exact Nat.mul_le_mul_left _ wide
  have offset : i * geom.fatSize ≤ geom.numFats * geom.fatSize := by
    rw [range.laid.copies]
    exact Nat.mul_le_mul_right _ (by omega)
  simp only [Geometry.dataStartSector, Geometry.rootStartSector, Geometry.fatStartSector,
    sector] at within clusters ⊢
  omega

theorem checked_write_fats (range : InRange geom totalBytes) (b : Builder)
    (held : Held geom totalBytes b) :
    Checked.writeFats geom b = .ok (writeFats geom b) ∧ Held geom totalBytes (writeFats geom b) := by
  have few := range.few
  have word := range.word
  have entries : b.fat.length * 4 < 2 ^ 64 := by
    rw [held.entries]
    omega
  have length : (fatBytes geom.fatType b.fat).length =
      (geom.clusterCount + 2) * geom.fatType.width := by
    rw [length_fat_bytes, held.entries]
  have step : ∀ (i : Nat), i < 2 → ∀ image : Bytes, image.length = totalBytes →
      (do
        let skipped ← Checked.mul64 i geom.fatSize
        let start ← Checked.add64 geom.fatStartSector skipped
        let offset ← Checked.mul64 start sector
        Checked.copy image offset (fatBytes geom.fatType b.fat)) =
        .ok (put image ((geom.fatStartSector + i * geom.fatSize) * sector)
          (fatBytes geom.fatType b.fat)) := by
    intro i copies image size
    have inside := copy_inside range i copies
    have offset : (geom.fatStartSector + i * geom.fatSize) * sector < 2 ^ 64 := by omega
    have start : geom.fatStartSector + i * geom.fatSize < 2 ^ 64 := by
      rw [sector] at offset
      omega
    have skipped : i * geom.fatSize < 2 ^ 64 := by omega
    have fits : (geom.fatStartSector + i * geom.fatSize) * sector +
        (fatBytes geom.fatType b.fat).length ≤ image.length := by
      rw [length, size]
      exact inside
    simp only [checked_mul_ok skipped, checked_add_ok start, checked_mul_ok offset, bind,
      Except.bind]
    exact checked_put_ok fits
  have copies : List.range geom.numFats = [0, 1] := by
    rw [range.laid.copies]
    rfl
  have first := step 0 (by decide) b.image held.image
  have second := step 1 (by decide)
    (put b.image ((geom.fatStartSector + 0 * geom.fatSize) * sector)
      (fatBytes geom.fatType b.fat)) (by rw [length_put, held.image])
  constructor
  · rw [Checked.writeFats, Checked.mul64, checked_mul_ok entries, writeFats, copies]
    simp only [bind, Except.bind, List.foldlM_cons, List.foldlM_nil] at first second ⊢
    simp only [first, second]
    rfl
  · refine ⟨?_, held.entries, held.low, held.high⟩
    rw [writeFats, copies]
    simp only [List.foldl_cons, List.foldl_nil, length_put]
    exact held.image

theorem length_fsinfo_sector (free nextFree : Nat) :
    (Checked.fsinfoSector free nextFree).length = sector := by
  simp only [Checked.fsinfoSector, length_put, List.length_replicate]

set_option maxRecDepth 2000 in
/-- Every volume has the sectors in front. -/
theorem front_inside (range : InRange geom totalBytes) : sector ≤ totalBytes ∧
    (geom.fatType = .fat32 → 8 * sector ≤ totalBytes) := by
  have within := range.laid.within
  have reserved := range.laid.reserved
  simp only [Geometry.dataStartSector, Geometry.rootStartSector, sector] at within ⊢
  constructor
  · cases kind : geom.fatType <;> simp only [kind] at reserved <;> omega
  · intro kind
    simp only [kind] at reserved
    omega

theorem checked_boot_sector (range : InRange geom totalBytes) (b : Builder)
    (held : Held geom totalBytes b) :
    Checked.writeBootSector geom params b = .ok (writeBootSector geom params b) ∧
      Held geom totalBytes (writeBootSector geom params b) := by
  obtain ⟨one, eight⟩ := front_inside range
  have length := length_boot_sector geom params
  have first : 0 + (bootSector geom params).length ≤ b.image.length := by
    rw [length, held.image, Nat.zero_add]
    exact one
  rw [Checked.writeBootSector, writeBootSector, Checked.copy, checked_put_ok first]
  by_cases kind : geom.fatType = .fat32
  · have backup : 6 * sector + (bootSector geom params).length ≤
        (put b.image 0 (bootSector geom params)).length := by
      rw [length, length_put, held.image]
      have room := eight kind
      omega
    simp only [kind, if_true, checked_put_ok backup, bind, Except.bind]
    refine ⟨trivial, ?_, held.entries, held.low, held.high⟩
    rw [length_put, length_put]
    exact held.image
  · simp only [kind, if_false, bind, Except.bind]
    refine ⟨trivial, ?_, held.entries, held.low, held.high⟩
    rw [length_put]
    exact held.image

theorem checked_fsinfo (range : InRange geom totalBytes) (kind : geom.fatType = .fat32)
    (b : Builder) (held : Held geom totalBytes b) :
    Checked.writeFsinfo geom b = .ok (writeFsinfo geom b) := by
  obtain ⟨_, eight⟩ := front_inside range
  have room := eight kind
  set s := Checked.fsinfoSector (geom.clusterCount - (b.nextFree - 2)) b.nextFree with sDef
  have length : s.length = sector := length_fsinfo_sector _ _
  have first : sector + s.length ≤ b.image.length := by
    rw [length, held.image]
    omega
  have backup : 7 * sector + s.length ≤ (put b.image sector s).length := by
    rw [length, length_put, held.image]
    omega
  simp only [Checked.writeFsinfo, checked_sub_ok held.low, ← sDef, checked_put_ok first,
    checked_put_ok backup, bind, Except.bind]
  rfl

theorem checked_finish (range : InRange geom totalBytes) (b : Builder)
    (held : Held geom totalBytes b) :
    Checked.finish geom params b = .ok (finish geom params b) := by
  obtain ⟨fats, heldFats⟩ := checked_write_fats range b held
  obtain ⟨boot, heldBoot⟩ := @checked_boot_sector _ _ params range _ heldFats
  rw [Checked.finish, finish, fats]
  simp only [boot, bind, Except.bind]
  by_cases kind : geom.fatType = .fat32
  · simp only [kind, if_true, checked_fsinfo range kind _ heldBoot]
  · simp only [kind, if_false]

end Render

/-! ## Sizes in range -/

/-- The largest number of clusters a volume of each type may have, and the smallest. -/
def Geometry.ValidCount (geom : Geometry) : Prop :=
  match geom.fatType with
  | .fat16 => 4085 ≤ geom.clusterCount ∧ geom.clusterCount ≤ 65524
  | .fat32 => 65525 ≤ geom.clusterCount ∧ geom.clusterCount ≤ 0x0FFFFFF5

theorem valid_count_iff (geom : Geometry) : geom.ValidCount ↔
    countAgrees geom = true ∧ (geom.fatType = .fat32 → geom.clusterCount ≤ 0x0FFFFFF5) := by
  rw [Geometry.ValidCount, countAgrees]
  cases geom.fatType <;> simp

/-- The number of sectors from which a volume has more clusters than FAT32 numbers. -/
def tooManySectors : Nat := 2151682004

theorem fat32_count_iff (n : Nat) (large : 64 * 2048 ≤ n) :
    (fat32Geometry n).clusterCount ≤ 0x0FFFFFF5 ↔ n < tooManySectors := by
  change (n - (32 + 2 * ((n - (32 + 0) + ((256 * fat32Spc n + 2) / 2 - 1)) /
    ((256 * fat32Spc n + 2) / 2)))) / fat32Spc n ≤ _ ↔ _
  have sizes : fat32Spc n = 1 ∧ n / 2048 ≤ 256 ∨ fat32Spc n = 2 ∧ n / 2048 ≤ 512 ∨
      fat32Spc n = 8 := by
    simp only [fat32Spc]
    split_ifs <;> simp_all
  rw [tooManySectors]
  rcases sizes with ⟨spc, below⟩ | ⟨spc, below⟩ | spc
  · rw [spc]
    omega
  · rw [spc]
    omega
  · rw [spc]
    omega

theorem fat16_root_region : fat16RootEntries * 32 = fat16RootDirSectors * sector := by
  decide

/-- On a volume with a valid count everything is in range. -/
theorem geometry_in_range (n : Nat) (geom : Geometry) (found : geometry n = .ok geom)
    (agrees : countAgrees geom = true) (few : n < tooManySectors) :
    InRange geom (n * sector) := by
  have some := count_positive agrees
  obtain ⟨laid, _⟩ := geometry_laid found some
  obtain ⟨wide, _⟩ := geometry_sizes found
  have word : n * sector < 2 ^ 50 := by
    rw [tooManySectors] at few
    rw [sector]
    omega
  rw [geometry] at found
  split at found
  case isTrue large =>
    cases found
    have count := (fat32_count_iff n large).mpr few
    refine ⟨laid, word, wide, ?_, some, by omega, fun kind => by cases kind⟩
    change fat32Spc n * sector ≤ 2 ^ 15
    have small : fat32Spc n ≤ 8 := by
      simp only [fat32Spc]
      split_ifs <;> omega
    exact (Nat.mul_le_mul_right sector small).trans (by decide)
  case isFalse small =>
    obtain ⟨spc, member, rfl⟩ := fat16_search_ok found
    refine ⟨laid, word, wide, ?_, some, ?_, fun _ => fat16_root_region⟩
    · change spc * sector ≤ 2 ^ 15
      have bound : spc ≤ 64 := by
        simp at member
        omega
      exact (Nat.mul_le_mul_right sector bound).trans (by decide)
    · have valid := (valid_count_iff _).mpr ⟨agrees, fun kind => by cases kind⟩
      change 4085 ≤ _ ∧ (fat16Geometry n spc).clusterCount ≤ 65524 at valid
      omega

theorem held_blank (geom : Geometry) (totalBytes : Nat) :
    Held geom totalBytes (blank geom totalBytes) := by
  refine ⟨List.length_replicate, ?_, Nat.le_refl 2, Nat.le_add_left 2 _⟩
  change (((List.replicate (geom.clusterCount + 2) 0).set 0 _).set 1 _).length = _
  rw [List.length_set, List.length_set, List.length_replicate]

/-- In range, the checked writer is the plain one. -/
theorem checked_format (totalBytes : Nat) (root : Dir) (params : Params)
    (inMemory : root.InMemory)
    (room : totalBytes / sector = 33 ∨ 35 ≤ totalBytes / sector)
    (few : totalBytes / sector < tooManySectors) :
    Checked.format totalBytes root params = refusing .refused (format totalBytes root params) := by
  rw [Checked.format, format]
  by_cases whole : totalBytes % sector = 0
  · have even : totalBytes / sector * sector = totalBytes :=
      Nat.div_mul_cancel (Nat.dvd_of_mod_eq_zero whole)
    have word : totalBytes / sector < 2 ^ 55 := by
      rw [tooManySectors] at few
      omega
    rw [checked_geometry _ room word]
    simp only [whole, ne_eq, not_true_eq_false, if_false, bind, Except.bind]
    cases found : geometry (totalBytes / sector) with
    | error error => rfl
    | ok geom =>
        simp only [refusing]
        by_cases agrees : countAgrees geom = true
        · have range := geometry_in_range _ geom found agrees few
          rw [even] at range
          have count := range.few
          have size := range.word
          have entries : geom.clusterCount + 2 < 2 ^ 64 := by omega
          have allocated : Checked.allocate geom totalBytes = .ok (blank geom totalBytes) := by
            have capacity : totalBytes < 2 ^ 63 ∧ (geom.clusterCount + 2) * 4 < 2 ^ 63 := by omega
            rw [Checked.allocate, Checked.add64, checked_add_ok entries]
            exact if_pos capacity
          obtain ⟨same, kept⟩ := @builds_root _ _ params range (blank geom totalBytes)
            (held_blank geom totalBytes) root inMemory
          simp only [agrees, not_true_eq_false, if_false, allocated, same]
          cases rendered : renderRoot geom params (blank geom totalBytes) root with
          | error error => rfl
          | ok b => exact checked_finish range b (kept b rendered)
        · simp only [agrees]
          rfl
  · simp only [whole, ne_eq, not_false_eq_true, if_true]
    rfl

end HorizonOs.Keybuild.Fat
