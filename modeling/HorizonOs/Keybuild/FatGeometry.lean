import HorizonOs.Keybuild.Fat

/-!
# Where the regions of a volume lie

The boot sector, the copies of the table, the root region and the clusters follow one
another, and they stay apart exactly when a copy of the table holds an entry for every
cluster and the two reserved ones. On FAT32 the formula for the table's size leaves room
for that; on FAT16 it does where it rounds up by more than one cluster's sectors.
-/

namespace HorizonOs.Keybuild.Fat

open HorizonOs.Lib.ByteCodec HorizonOs.Lib.Buffer

set_option autoImplicit false

/-- The bytes of one entry of the table. -/
def FatType.width : FatType → Nat
  | .fat16 => 2
  | .fat32 => 4

theorem length_fat_bytes (fatType : FatType) (fat : List Nat) :
    (fatBytes fatType fat).length = fat.length * fatType.width := by
  have each : ∀ e, (fatEntryBytes fatType e).length = fatType.width := by
    intro e
    cases fatType <;> exact length_encode_le _ _
  induction fat with
  | nil => exact (Nat.zero_mul _).symm
  | cons e fat ih =>
      rw [fatBytes, List.flatMap_cons, List.length_append, each, List.length_cons, Nat.succ_mul,
        Nat.add_comm]
      exact congrArg (· + _) ih

/-- A copy of the table: its offset and the length of all its entries. -/
def Geometry.copy (geom : Geometry) (i : Nat) : Nat × Nat :=
  ((geom.fatStartSector + i * geom.fatSize) * sector,
    (geom.clusterCount + 2) * geom.fatType.width)

/-- What precedes the clusters: on FAT32 the FSInfo and both backups beside the boot
sector, on FAT16 the root region after the copies of the table. -/
def Geometry.front (geom : Geometry) : List (Nat × Nat) :=
  match geom.fatType with
  | .fat16 =>
      (0, sector) :: (List.range geom.numFats).map geom.copy ++
        [(geom.rootStartSector * sector, geom.rootDirSectors * sector)]
  | .fat32 =>
      [(0, sector), (sector, sector), (6 * sector, sector), (7 * sector, sector)] ++
        (List.range geom.numFats).map geom.copy

/-- The regions of a volume as offset and length, in their order on the disk. -/
def Geometry.regions (geom : Geometry) : List (Nat × Nat) :=
  geom.front ++ (List.range' 2 geom.clusterCount).map fun c =>
    (geom.clusterOffset c, geom.clusterBytes)

def Before (left right : Nat × Nat) : Prop := left.1 + left.2 ≤ right.1

def Apart (left right : Nat × Nat) : Prop := Before left right ∨ Before right left

/-- No region overwrites another, and all lie in the image. -/
def Geometry.Disjoint (geom : Geometry) (totalBytes : Nat) : Prop :=
  geom.regions.Pairwise Apart ∧ ∀ region ∈ geom.regions, region.1 + region.2 ≤ totalBytes

/-- What both kinds of geometry agree on. -/
structure Laid (geom : Geometry) (totalBytes : Nat) : Prop where
  copies : geom.numFats = 2
  reserved : (match geom.fatType with | .fat16 => 1 | .fat32 => 8) ≤ geom.reservedSectors
  within : (geom.dataStartSector + geom.clusterCount * geom.sectorsPerCluster) * sector ≤ totalBytes

/-- A copy of the table has room for all its entries. -/
def Geometry.Roomy (geom : Geometry) : Prop :=
  (geom.clusterCount + 2) * geom.fatType.width ≤ geom.fatSize * sector

section Order

variable {geom : Geometry} {totalBytes : Nat}

theorem cluster_after (c : Nat) (low : 2 ≤ c) :
    geom.clusterOffset c + geom.clusterBytes = geom.clusterOffset (c + 1) := by
  have next : c + 1 - 2 = c - 2 + 1 := by omega
  rw [Geometry.clusterOffset, Geometry.clusterOffset, Geometry.clusterBytes, next, ← Nat.add_mul,
    Nat.succ_mul, Nat.add_assoc]

theorem cluster_mono {c d : Nat} (order : c ≤ d) : geom.clusterOffset c ≤ geom.clusterOffset d :=
  Nat.mul_le_mul_right _ (Nat.add_le_add_left (Nat.mul_le_mul_right _ (by omega)) _)

theorem cluster_low (c : Nat) : geom.dataStartSector * sector ≤ geom.clusterOffset c :=
  Nat.mul_le_mul_right _ (Nat.le_add_right _ _)

theorem cluster_inside (laid : Laid geom totalBytes) (c : Nat) (low : 2 ≤ c)
    (high : c < 2 + geom.clusterCount) : geom.clusterOffset c + geom.clusterBytes ≤ totalBytes := by
  rw [cluster_after c low]
  apply Nat.le_trans (cluster_mono (d := geom.clusterCount + 2) (by omega))
  rw [Geometry.clusterOffset, Nat.add_sub_cancel]
  exact laid.within

theorem clusters_before :
    ((List.range' 2 geom.clusterCount).map fun c =>
      (geom.clusterOffset c, geom.clusterBytes)).Pairwise Before := by
  rw [List.pairwise_map]
  apply List.Pairwise.imp_of_mem _ (List.pairwise_lt_range' (s := 2))
  intro c d left _ order
  rw [Before, cluster_after c (List.mem_range'_1.mp left).1]
  exact cluster_mono order

/-- Where the table has room, what precedes the clusters is in order and ends before them. -/
theorem front_before (laid : Laid geom totalBytes) (roomy : geom.Roomy) :
    geom.front.Pairwise Before ∧
      ∀ region ∈ geom.front, region.1 + region.2 ≤ geom.dataStartSector * sector := by
  have reserved := laid.reserved
  rw [Geometry.Roomy] at roomy
  generalize length : (geom.clusterCount + 2) * geom.fatType.width = bytes at roomy
  simp only [Geometry.front, Geometry.copy, Geometry.dataStartSector, Geometry.rootStartSector,
    Geometry.fatStartSector, laid.copies, length, List.range_succ, List.range_zero, List.nil_append,
    List.map_append, List.map_cons, List.map_nil, sector] at roomy ⊢
  cases kind : geom.fatType with
  | fat16 =>
      simp only [kind] at reserved
      simp [Before]
      omega
  | fat32 =>
      simp only [kind] at reserved
      simp [Before]
      omega

/-- The two copies of the table are apart only where the first has room. -/
theorem roomy_of_apart (laid : Laid geom totalBytes) (apart : geom.front.Pairwise Apart)
    (some : 0 < geom.clusterCount) : geom.Roomy := by
  have copies : ([geom.copy 0, geom.copy 1] : List (Nat × Nat)).Pairwise Apart := by
    have both : [geom.copy 0, geom.copy 1] = (List.range geom.numFats).map geom.copy := by
      rw [laid.copies]
      rfl
    apply List.Pairwise.sublist _ apart
    rw [both, Geometry.front]
    cases geom.fatType with
    | fat16 => exact (List.sublist_cons_self _ _).trans (List.sublist_append_left _ _)
    | fat32 => exact List.sublist_append_right _ _
  have width : 0 < geom.fatType.width := by cases geom.fatType <;> decide
  have filled : 0 < (geom.clusterCount + 2) * geom.fatType.width := Nat.mul_pos (by omega) width
  rw [Geometry.Roomy]
  simp only [List.pairwise_cons, List.mem_singleton, forall_eq, Apart, Before, Geometry.copy,
    sector] at copies ⊢
  omega

theorem disjoint_iff_roomy (laid : Laid geom totalBytes) (some : 0 < geom.clusterCount) :
    geom.Disjoint totalBytes ↔ geom.Roomy := by
  constructor
  · intro disjoint
    exact roomy_of_apart laid (List.pairwise_append.mp disjoint.1).1 some
  · intro roomy
    obtain ⟨ordered, below⟩ := front_before laid roomy
    have whole : geom.regions.Pairwise Before := by
      refine List.pairwise_append.mpr ⟨ordered, clusters_before, fun region member cluster inside => ?_⟩
      obtain ⟨c, _, rfl⟩ := List.mem_map.mp inside
      exact (below region member).trans (cluster_low c)
    refine ⟨whole.imp .inl, fun region member => ?_⟩
    rcases List.mem_append.mp member with front | cluster
    · apply (below region front).trans (Nat.le_trans _ laid.within)
      exact Nat.mul_le_mul_right _ (Nat.le_add_right _ _)
    · obtain ⟨c, inside, rfl⟩ := List.mem_map.mp cluster
      obtain ⟨low, high⟩ := List.mem_range'_1.mp inside
      exact cluster_inside laid c low high

end Order

/-! ## Where the formula leaves room -/

/-- The sectors by which the FAT16 formula rounds up to whole sectors of the table. -/
def fat16Slack (totalSectors spc : Nat) : Nat :=
  fatSizeSectors totalSectors spc numFats 1 fat16RootDirSectors .fat16 * (256 * spc + 2) -
    (totalSectors - 33)

/-- The sizes whose table has room: FAT32, and FAT16 where the slack is more than a
cluster. -/
def Geometry.HasSlack (geom : Geometry) : Prop :=
  geom.fatType = .fat32 ∨
    geom.sectorsPerCluster < fat16Slack geom.totalSectors geom.sectorsPerCluster

instance (geom : Geometry) : Decidable geom.HasSlack := inferInstanceAs (Decidable (_ ∨ _))

/-- The bounds a geometry must keep, in sectors: the clusters end within the volume, and a
copy of the table holds all entries. -/
theorem fat32_sizes (n spc : Nat) (size : spc = 1 ∨ spc = 2 ∨ spc = 8) (large : 64 * 2048 ≤ n) :
    let fat := (n - 32 + ((256 * spc + 2) / 2 - 1)) / ((256 * spc + 2) / 2)
    32 + 2 * fat + (n - (32 + 2 * fat)) / spc * spc ≤ n ∧
      ((n - (32 + 2 * fat)) / spc + 2) * 4 ≤ fat * 512 := by
  rcases size with rfl | rfl | rfl <;> omega

theorem fat32_laid (totalSectors : Nat) (large : 64 * 2048 ≤ totalSectors) :
    Laid (fat32Geometry totalSectors) (totalSectors * sector) ∧
      (fat32Geometry totalSectors).Roomy := by
  have sizes : fat32Spc totalSectors = 1 ∨ fat32Spc totalSectors = 2 ∨ fat32Spc totalSectors = 8 := by
    simp only [fat32Spc]
    split_ifs <;> simp
  obtain ⟨within, roomy⟩ := fat32_sizes totalSectors _ sizes large
  refine ⟨⟨rfl, ?_, ?_⟩, ?_⟩
  · change 8 ≤ 32
    omega
  · exact Nat.mul_le_mul_right sector within
  · exact roomy

/-- On FAT16 the table has room exactly where the slack is more than a cluster. -/
theorem fat16_sizes (n spc : Nat)
    (size : spc = 1 ∨ spc = 2 ∨ spc = 4 ∨ spc = 8 ∨ spc = 16 ∨ spc = 32 ∨ spc = 64) :
    let fat := (n - 33 + (256 * spc + 2 - 1)) / (256 * spc + 2)
    0 < (n - (1 + 2 * fat + 32)) / spc →
      1 + 2 * fat + 32 + (n - (1 + 2 * fat + 32)) / spc * spc ≤ n ∧
        (((n - (1 + 2 * fat + 32)) / spc + 2) * 2 ≤ fat * 512 ↔
          spc < fat * (256 * spc + 2) - (n - 33)) := by
  rcases size with rfl | rfl | rfl | rfl | rfl | rfl | rfl <;> omega

theorem fat16_laid (totalSectors spc : Nat) (size : spc ∈ [1, 2, 4, 8, 16, 32, 64])
    (some : 0 < (fat16Geometry totalSectors spc).clusterCount) :
    Laid (fat16Geometry totalSectors spc) (totalSectors * sector) ∧
      ((fat16Geometry totalSectors spc).Roomy ↔ (fat16Geometry totalSectors spc).HasSlack) := by
  obtain ⟨within, roomy⟩ := fat16_sizes totalSectors spc (by simpa using size) some
  refine ⟨⟨rfl, Nat.le_refl 1, Nat.mul_le_mul_right sector within⟩, ?_⟩
  have kind : (fat16Geometry totalSectors spc).fatType ≠ .fat32 := FatType.noConfusion
  rw [Geometry.HasSlack, or_iff_right kind]
  exact roomy

/-! ## Every volume that is formatted -/

theorem fat16_search_ok {totalSectors : Nat} {sizes : List Nat} {geom : Geometry}
    (found : fat16Search totalSectors sizes = .ok geom) :
    ∃ spc ∈ sizes, geom = fat16Geometry totalSectors spc := by
  induction sizes with
  | nil => contradiction
  | cons spc sizes ih =>
      rw [fat16Search] at found
      split_ifs at found with few
      · exact ⟨spc, List.mem_cons_self, (Except.ok.inj found).symm⟩
      · obtain ⟨other, member, same⟩ := ih found
        exact ⟨other, List.mem_cons_of_mem spc member, same⟩

/-- A geometry with clusters is laid out in its volume, with room exactly where it has
slack. -/
theorem geometry_laid {totalSectors : Nat} {geom : Geometry}
    (found : geometry totalSectors = .ok geom) (some : 0 < geom.clusterCount) :
    Laid geom (totalSectors * sector) ∧ (geom.Roomy ↔ geom.HasSlack) := by
  rw [geometry] at found
  split_ifs at found with large
  · rw [← Except.ok.inj found]
    obtain ⟨laid, roomy⟩ := fat32_laid totalSectors large
    exact ⟨laid, iff_of_true roomy (.inl rfl)⟩
  · obtain ⟨spc, member, rfl⟩ := fat16_search_ok found
    exact fat16_laid totalSectors spc member some

theorem count_positive {geom : Geometry} (agrees : countAgrees geom) : 0 < geom.clusterCount := by
  rw [countAgrees] at agrees
  split at agrees <;> simp at agrees <;> omega

/-- What `format` has checked when it returns an image. -/
theorem format_checked {totalBytes : Nat} {root : Dir} {params : Params} {image : Bytes}
    (made : format totalBytes root params = .ok image) :
    totalBytes % sector = 0 ∧ ∃ geom, geometry (totalBytes / sector) = .ok geom ∧
      countAgrees geom ∧
      ∃ b, renderRoot geom params (blank geom totalBytes) root = .ok b ∧
        finish geom params b = image := by
  rw [format] at made
  split_ifs at made with ragged
  · cases found : geometry (totalBytes / sector) with
    | error error =>
        rw [found] at made
        contradiction
    | ok geom =>
        simp only [found, bind, Except.bind] at made
        split_ifs at made with differs
        · cases rendered : renderRoot geom params (blank geom totalBytes) root with
          | error error =>
              rw [rendered] at made
              contradiction
          | ok b =>
              rw [rendered] at made
              exact ⟨of_not_not ragged, geom, rfl, differs, b, rendered, Except.ok.inj made⟩

/-- A cluster is at least a sector, and a FAT16 root region has its 512 entries. -/
theorem geometry_sizes {totalSectors : Nat} {geom : Geometry}
    (found : geometry totalSectors = .ok geom) :
    sector ≤ geom.clusterBytes ∧ (geom.fatType = .fat16 → geom.rootEntries = fat16RootEntries) := by
  rw [geometry] at found
  split_ifs at found with large
  · rw [← Except.ok.inj found]
    have one : 1 ≤ fat32Spc totalSectors := by
      simp only [fat32Spc]
      split_ifs <;> omega
    exact ⟨Nat.le_mul_of_pos_left sector one, fun kind => FatType.noConfusion kind⟩
  · obtain ⟨spc, member, rfl⟩ := fat16_search_ok found
    have one : 1 ≤ spc := by
      simp at member
      omega
    exact ⟨Nat.le_mul_of_pos_left sector one, fun _ => rfl⟩

/-- An empty tree fits every volume that has a geometry. -/
theorem empty_tree_formats (totalBytes : Nat) (params : Params) (geom : Geometry)
    (whole : totalBytes % sector = 0) (found : geometry (totalBytes / sector) = .ok geom)
    (agrees : countAgrees geom) : ∃ image, format totalBytes .nil params = .ok image := by
  obtain ⟨wide, entries⟩ := geometry_sizes found
  have rendered : ∃ b, renderRoot geom params (blank geom totalBytes) .nil = .ok b := by
    rw [renderRoot]
    cases kind : geom.fatType with
    | fat16 =>
        have room : ¬geom.rootEntries < contentSlots .nil true := by
          rw [entries kind]
          decide
        simp only [if_neg room]
        exact ⟨_, rfl⟩
    | fat32 =>
        have cluster : 0 < geom.clusterCount := count_positive agrees
        have one : dirClusters geom .nil true = 1 := by
          have slots : contentSlots .nil true * 32 = 32 := rfl
          rw [dirClusters, slots, divCeil, sector] at *
          have below : (32 + (geom.clusterBytes - 1)) / geom.clusterBytes < 2 := by
            rw [Nat.div_lt_iff_lt_mul (by omega)]
            omega
          omega
        have room : ¬(1 = 0 ∨ geom.maxCluster < (blank geom totalBytes).nextFree + 1 - 1) := by
          simp only [Geometry.maxCluster, blank]
          omega
        simp only [allocChain, one, if_neg room]
        exact ⟨_, rfl⟩
  obtain ⟨b, rendered⟩ := rendered
  refine ⟨finish geom params b, ?_⟩
  simp only [format, whole, found, bind, Except.bind, rendered, agrees]
  rfl

/-- The regions of a formatted volume are apart, and in its image, exactly where the table
has room for what is written into it. -/
theorem regions_disjoint_iff (totalBytes : Nat) (root : Dir) (params : Params) (image : Bytes)
    (made : format totalBytes root params = .ok image) :
    ∃ geom, geometry (totalBytes / sector) = .ok geom ∧
      (geom.Disjoint totalBytes ↔ geom.HasSlack) := by
  obtain ⟨whole, geom, found, agrees, _⟩ := format_checked made
  obtain ⟨laid, roomy⟩ := geometry_laid found (count_positive agrees)
  rw [Nat.div_mul_cancel (Nat.dvd_of_mod_eq_zero whole)] at laid
  exact ⟨geom, found, (disjoint_iff_roomy laid (count_positive agrees)).trans roomy⟩

def sampleParams : Params where
  oemName := FixedBytes.ofBytes 8 []
  volumeLabel := FixedBytes.ofBytes 11 [0x45, 0x53, 0x50]
  volumeId := 0

/-- At 4161 sectors the formula rounds nothing up, and both copies are two entries short. -/
theorem tight_geometry : geometry (4161 * sector / sector) = .ok (fat16Geometry 4161 1) ∧
    countAgrees (fat16Geometry 4161 1) ∧ ¬(fat16Geometry 4161 1).Roomy := by
  unfold Geometry.Roomy
  decide

theorem regions_disjoint_iff_sample :
    ∃ image, format (4161 * sector) .nil sampleParams = .ok image ∧
      ∃ geom, geometry (4161 * sector / sector) = .ok geom ∧
        (geom.Disjoint (4161 * sector) ↔ geom.HasSlack) := by
  obtain ⟨image, made⟩ := empty_tree_formats (4161 * sector) sampleParams (fat16Geometry 4161 1)
    (by decide) tight_geometry.1 tight_geometry.2.1
  exact ⟨image, made, regions_disjoint_iff (4161 * sector) .nil sampleParams image made⟩

theorem tables_overlap :
    ¬∀ (totalBytes : Nat) (root : Dir) (params : Params) (image : Bytes) (geom : Geometry),
      format totalBytes root params = .ok image → geometry (totalBytes / sector) = .ok geom →
        geom.Disjoint totalBytes := by
  intro always
  obtain ⟨found, agrees, tight⟩ := tight_geometry
  obtain ⟨image, made⟩ := empty_tree_formats (4161 * sector) sampleParams (fat16Geometry 4161 1)
    (by decide) found agrees
  obtain ⟨laid, _⟩ := geometry_laid found (count_positive agrees)
  exact tight ((disjoint_iff_roomy laid (count_positive agrees)).mp
    (always (4161 * sector) .nil sampleParams image (fat16Geometry 4161 1) made found))

end HorizonOs.Keybuild.Fat
