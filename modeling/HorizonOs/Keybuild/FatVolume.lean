import HorizonOs.Keybuild.FatReadback

/-!
# A formatted volume read back

The parameter block that is written is read as the geometry it was written from, the
copies of the table hold the builder's links, and so the tree of a formatted volume is
found again, as long as the volume has no more clusters than FAT32 has numbers for.
-/

namespace HorizonOs.Keybuild.Fat

open HorizonOs.Lib.ByteCodec HorizonOs.Lib.Buffer HorizonOs.Lib.Text

set_option autoImplicit false

/-! ## The boot sector -/

/-- The sixteen-bit count of sectors is used where it is wide enough, on FAT16. -/
def Geometry.IsSmall (geom : Geometry) : Prop := geom.fatType = .fat16 ∧ geom.totalSectors < 0x10000

instance (geom : Geometry) : Decidable geom.IsSmall := inferInstanceAs (Decidable (_ ∧ _))

theorem fixed_length {n : Nat} (fixed : FixedBytes n) : fixed.bytes.length = n := fixed.size

theorem type_name_length : (utf8 "FAT16   ").length = 8 ∧ (utf8 "FAT32   ").length = 8 := by
  decide

/-- The fields of the parameter block, each cut to its width. -/
structure BootFields (geom : Geometry) (s : Bytes) : Prop where
  sectorBytes : field s 11 2 = sector
  sectorsPerCluster : field s 13 1 = geom.sectorsPerCluster % 2 ^ 8
  reserved : field s 14 2 = geom.reservedSectors % 2 ^ 16
  fats : field s 16 1 = geom.numFats % 2 ^ 8
  rootEntries : field s 17 2 = geom.rootEntries % 2 ^ 16
  total16 : field s 19 2 = (if geom.IsSmall then geom.totalSectors else 0) % 2 ^ 16
  fatSize16 : field s 22 2 = (if geom.fatType = .fat16 then geom.fatSize else 0) % 2 ^ 16
  total32 : field s 32 4 = (if geom.IsSmall then 0 else geom.totalSectors) % 2 ^ 32
  signature : field s 510 2 = 0xAA55
  fat32 : geom.fatType = .fat32 → field s 36 4 = geom.fatSize % 2 ^ 32 ∧
    field s 44 4 = fat32RootCluster

theorem boot_fields (geom : Geometry) (params : Params) :
    BootFields geom (bootSector geom params) := by
  have oem := fixed_length params.oemName
  have label := fixed_length params.volumeLabel
  obtain ⟨name16, name32⟩ := type_name_length
  have length : (List.replicate sector (0 : UInt8)).length = 512 := List.length_replicate
  have jump : (if geom.fatType = .fat16 then [0xEB, 0x3C, 0x90] else [0xEB, 0x58, 0x90] : Bytes).length
      = 3 := by
    split_ifs <;> rfl
  unfold bootSector
  generalize (if geom.fatType = .fat16 then [0xEB, 0x3C, 0x90] else [0xEB, 0x58, 0x90] : Bytes) = opening
    at jump ⊢
  generalize List.replicate sector (0 : UInt8) = s at length ⊢
  cases kind : geom.fatType with
  | fat16 =>
      constructor <;>
        simp (disch := simp [length, oem, label, name16, jump]) only
          [field, kind, fat16Tail, slice_put_apart, slice_put_self]
      case signature => rfl
      case fat32 => exact fun other => FatType.noConfusion other
      all_goals
        simp only [decode_encode_le, Geometry.IsSmall, kind]
        rfl
  | fat32 =>
      constructor <;>
        simp (disch := simp [length, oem, label, name32, jump]) only
          [field, kind, fat32Tail, slice_put_apart, slice_put_self]
      case signature => rfl
      case fat32 => exact fun _ => ⟨decode_encode_le 4 _, decode_encode_le 4 _⟩
      all_goals
        simp only [decode_encode_le, Geometry.IsSmall, kind]
        rfl

/-! ## The front of the volume -/

theorem length_boot_sector (geom : Geometry) (params : Params) :
    (bootSector geom params).length = sector := by
  rw [bootSector]
  cases geom.fatType <;> simp only [fat16Tail, fat32Tail, length_put, List.length_replicate]

/-- The image after the table, the boot sector and the FSInfo were written: what lies
behind the table is as it was. -/
structure Finished (geom : Geometry) (params : Params) (b : Builder) (image : Bytes) : Prop where
  length : image.length = b.image.length
  behind : ∀ i, geom.rootStartSector * sector ≤ i → image[i]? = b.image[i]?
  boot : slice image 0 sector = bootSector geom params
  table : slice image (geom.fatStartSector * sector) ((geom.clusterCount + 2) * geom.fatType.width) =
    fatBytes geom.fatType b.fat

theorem write_fats_image (geom : Geometry) (b : Builder) (copies : geom.numFats = 2) :
    (writeFats geom b).image =
      put (put b.image (geom.fatStartSector * sector) (fatBytes geom.fatType b.fat))
        ((geom.fatStartSector + geom.fatSize) * sector) (fatBytes geom.fatType b.fat) := by
  simp only [writeFats, copies, List.range_succ, List.range_zero, List.nil_append, List.foldl_append,
    List.foldl_cons, List.foldl_nil, Nat.zero_mul, Nat.add_zero, Nat.one_mul]

theorem write_fsinfo_image (geom : Geometry) (b : Builder) :
    ∃ s : Bytes, s.length = sector ∧
      (writeFsinfo geom b).image = put (put b.image sector s) (7 * sector) s := by
  refine ⟨_, ?_, rfl⟩
  simp only [length_put, List.length_replicate]

/-- What follows the boot sector's reserved area: the two copies, and nothing beside them. -/
theorem table_image (buffer bytes : Bytes) (start size : Nat) (fits : bytes.length ≤ size)
    (inside : start + 2 * size ≤ buffer.length) :
    (put (put buffer start bytes) (start + size) bytes).length = buffer.length ∧
      (∀ i, start + 2 * size ≤ i →
        (put (put buffer start bytes) (start + size) bytes)[i]? = buffer[i]?) ∧
      slice (put (put buffer start bytes) (start + size) bytes) start bytes.length = bytes := by
  refine ⟨by rw [length_put, length_put], fun i after => ?_, ?_⟩
  · rw [get_put, if_neg (by omega), get_put, if_neg (by omega)]
  · rw [slice_put_apart _ _ _ _ _ (by omega), slice_put_self _ _ _ _ rfl (by omega)]

theorem finished_image {geom : Geometry} {totalBytes : Nat} (params : Params) (b : Builder)
    (laid : Laid geom totalBytes) (roomy : geom.Roomy) (entries : b.fat.length = geom.clusterCount + 2)
    (inside : geom.rootStartSector * sector ≤ b.image.length) :
    Finished geom params b (finish geom params b) := by
  have fats := write_fats_image geom b laid.copies
  have tableLength := length_fat_bytes geom.fatType b.fat
  have bootLength := length_boot_sector geom params
  have reserved := laid.reserved
  rw [entries] at tableLength
  have start : geom.rootStartSector * sector =
      geom.fatStartSector * sector + 2 * (geom.fatSize * sector) := by
    rw [Geometry.rootStartSector, laid.copies, Geometry.fatStartSector]
    ring
  rw [Nat.add_mul] at fats
  rw [Geometry.Roomy, ← tableLength] at roomy
  rw [start] at inside
  obtain ⟨length, behind, table⟩ := table_image b.image (fatBytes geom.fatType b.fat)
    (geom.fatStartSector * sector) (geom.fatSize * sector) roomy inside
  rw [← fats] at length behind table
  rw [tableLength] at table
  have bytes : sector = 512 := rfl
  cases kind : geom.fatType with
  | fat16 =>
      simp only [kind] at reserved
      have front : sector ≤ geom.fatStartSector * sector := Nat.le_mul_of_pos_left sector reserved
      have image : finish geom params b = put (writeFats geom b).image 0 (bootSector geom params) := by
        simp only [finish, writeBootSector, kind]
        rfl
      rw [image]
      refine ⟨by rw [length_put, length], fun i after => ?_, ?_, ?_⟩
      · rw [start] at after
        rw [get_put, if_neg (by omega), behind i after]
      · exact slice_put_self _ 0 sector _ bootLength (by omega)
      · rw [slice_put_apart _ _ _ _ _ (by omega), table]
  | fat32 =>
      simp only [kind] at reserved
      have front : 8 * sector ≤ geom.fatStartSector * sector := Nat.mul_le_mul_right sector reserved
      obtain ⟨s, size, info⟩ := write_fsinfo_image geom (writeBootSector geom params (writeFats geom b))
      have image : finish geom params b =
          put (put (put (put (writeFats geom b).image 0 (bootSector geom params)) (6 * sector)
            (bootSector geom params)) sector s) (7 * sector) s := by
        have boot : (writeBootSector geom params (writeFats geom b)).image =
            put (put (writeFats geom b).image 0 (bootSector geom params)) (6 * sector)
              (bootSector geom params) := by
          simp only [writeBootSector, kind, if_true]
        rw [boot] at info
        rw [← info]
        simp only [finish, kind, if_true]
      rw [image]
      refine ⟨by simp only [length_put, length], fun i after => ?_, ?_, ?_⟩
      · rw [start] at after
        rw [get_put, if_neg (by omega), get_put, if_neg (by omega), get_put, if_neg (by omega), get_put,
          if_neg (by omega), behind i after]
      · rw [slice_put_apart _ _ _ _ _ (by omega), slice_put_apart _ _ _ _ _ (by omega),
          slice_put_apart _ _ _ _ _ (by omega), slice_put_self _ 0 sector _ bootLength (by omega)]
      · rw [slice_put_apart _ _ _ _ _ (by omega), slice_put_apart _ _ _ _ _ (by omega),
          slice_put_apart _ _ _ _ _ (by omega), slice_put_apart _ _ _ _ _ (by omega), table]

theorem fat_entry_length (fatType : FatType) (e : Nat) :
    (fatEntryBytes fatType e).length = fatType.width := by
  cases fatType <;> exact length_encode_le _ _

/-- The entry of a cluster is read from the table as the builder has it. -/
theorem next_read {geom : Geometry} {params : Params} {b : Builder} {image : Bytes}
    (finished : Finished geom params b image) (entries : b.fat.length = geom.clusterCount + 2)
    (volume : Volume) (kind : volume.fatType = geom.fatType)
    (offset : volume.fatOffset = geom.fatStartSector * sector) (c value : Nat)
    (found : b.fat[c]? = some value) (fits : value ≤ geom.eoc) : volume.next image c = value := by
  obtain ⟨inside, _⟩ := List.getElem?_eq_some_iff.mp found
  rw [entries] at inside
  have within : c * geom.fatType.width + geom.fatType.width ≤
      (geom.clusterCount + 2) * geom.fatType.width := by
    rw [← Nat.succ_mul]
    exact Nat.mul_le_mul_right _ inside
  have read : slice image (geom.fatStartSector * sector + c * geom.fatType.width)
      geom.fatType.width = fatEntryBytes geom.fatType value := by
    rw [← slice_slice _ _ _ _ _ within, finished.table, fatBytes]
    exact slice_flat_map b.fat _ _ (fat_entry_length geom.fatType) c value found
  rw [Volume.next, kind, offset]
  rw [Geometry.eoc] at fits
  cases type : geom.fatType with
  | fat16 =>
      simp only [type, FatType.width, fatEntryBytes] at read fits
      simp only [field, read]
      exact decode_encode_le_of_lt 2 value (by omega)
  | fat32 =>
      simp only [type, FatType.width, fatEntryBytes] at read fits
      simp only [field, read]
      rw [decode_encode_le_of_lt 4 _ (by omega)]
      omega

/-! ## The parameter block read -/

/-- What the two kinds of geometry have in their fields. -/
structure Shaped (geom : Geometry) (totalSectors : Nat) : Prop where
  total : geom.totalSectors = totalSectors
  sizes : geom.sectorsPerCluster ∈ [1, 2, 4, 8, 16, 32, 64]
  fats : geom.numFats = 2
  fat16 : geom.fatType = .fat16 → totalSectors < 2 ^ 17 ∧ geom.reservedSectors = 1 ∧
    geom.rootEntries = 512 ∧ geom.rootDirSectors = 32 ∧ 0 < geom.fatSize ∧ geom.fatSize < 2 ^ 16
  fat32 : geom.fatType = .fat32 → geom.reservedSectors = 32 ∧ geom.rootEntries = 0 ∧
    geom.rootDirSectors = 0
  count : geom.clusterCount = (totalSectors - geom.dataStartSector) / geom.sectorsPerCluster
  starts : geom.dataStartSector < totalSectors

theorem starts_of_count {total start spc : Nat} (positive : 0 < (total - start) / spc) :
    start < total := by
  by_contra after
  rw [Nat.sub_eq_zero_of_le (Nat.le_of_not_lt after), Nat.zero_div] at positive
  exact Nat.lt_irrefl 0 positive

theorem fat16_shaped (totalSectors spc : Nat) (small : totalSectors < 64 * 2048)
    (size : spc ∈ [1, 2, 4, 8, 16, 32, 64])
    (positive : 0 < (fat16Geometry totalSectors spc).clusterCount) :
    Shaped (fat16Geometry totalSectors spc) totalSectors := by
  have starts := starts_of_count positive
  have fatSize : 0 < (fat16Geometry totalSectors spc).fatSize ∧
      (fat16Geometry totalSectors spc).fatSize < 2 ^ 16 := by
    change 0 < (totalSectors - 33 + (256 * spc + 2 - 1)) / (256 * spc + 2) ∧
      (totalSectors - 33 + (256 * spc + 2 - 1)) / (256 * spc + 2) < 2 ^ 16
    have dirs : fat16RootDirSectors = 32 := by decide
    have after : 1 + numFats * _ + fat16RootDirSectors < totalSectors := starts
    have later : 33 < totalSectors := by omega
    have width : 0 < 256 * spc + 2 := by omega
    constructor
    · exact Nat.div_pos (by omega) width
    · rw [Nat.div_lt_iff_lt_mul width]
      have wide : 2 ^ 16 * 2 ≤ 2 ^ 16 * (256 * spc + 2) := Nat.mul_le_mul_left _ (by omega)
      simp at size
      omega
  exact
    { total := rfl
      sizes := size
      fats := rfl
      fat16 := fun _ => ⟨by omega, rfl, rfl, rfl, fatSize⟩
      fat32 := fun other => FatType.noConfusion other
      count := rfl
      starts }

theorem fat32_shaped (totalSectors : Nat)
    (positive : 0 < (fat32Geometry totalSectors).clusterCount) :
    Shaped (fat32Geometry totalSectors) totalSectors where
  total := rfl
  sizes := by
    change fat32Spc totalSectors ∈ _
    simp only [fat32Spc]
    split_ifs <;> simp
  fats := rfl
  fat16 other := FatType.noConfusion other
  fat32 _ := ⟨rfl, rfl, rfl⟩
  count := rfl
  starts := starts_of_count positive

theorem geometry_shaped {totalSectors : Nat} {geom : Geometry}
    (found : geometry totalSectors = .ok geom) (agrees : countAgrees geom) :
    Shaped geom totalSectors := by
  have positive := count_positive agrees
  rw [geometry] at found
  split_ifs at found with large
  · cases found
    exact fat32_shaped totalSectors positive
  · obtain ⟨spc, member, rfl⟩ := fat16_search_ok found
    exact fat16_shaped totalSectors spc (by omega) member positive

/-- The volume a reader makes of a geometry. -/
def Geometry.volume (geom : Geometry) (rootCluster : Nat) : Volume where
  fatType := geom.fatType
  fatOffset := geom.fatStartSector * sector
  rootOffset := geom.rootStartSector * sector
  rootBytes := geom.rootEntries * 32
  dataOffset := geom.dataStartSector * sector
  clusterBytes := geom.clusterBytes
  clusterCount := geom.clusterCount
  rootCluster

section Header

variable {geom : Geometry} {params : Params} {image : Bytes} {totalSectors : Nat}

theorem field_front (boot : slice image 0 sector = bootSector geom params) (offset width : Nat)
    (within : offset + width ≤ sector) :
    field image offset width = field (bootSector geom params) offset width := by
  have inner := slice_slice image 0 sector offset width within
  rw [boot, Nat.zero_add] at inner
  rw [field, field, inner]

/-- The numbers a reader takes from the block: those of the geometry, as long as the count
of sectors has room in its field. -/
structure BlockRead (geom : Geometry) (image : Bytes) (totalSectors : Nat) : Prop where
  sectorBytes : field image 11 2 = 512
  sectorsPerCluster : field image 13 1 = geom.sectorsPerCluster
  reserved : field image 14 2 = geom.reservedSectors
  fats : field image 16 1 = geom.numFats
  rootEntries : field image 17 2 = geom.rootEntries
  total : (if field image 19 2 = 0 then field image 32 4 else field image 19 2) =
    totalSectors % 2 ^ 32
  fatSize : totalSectors < 2 ^ 32 →
    (if field image 22 2 = 0 then field image 36 4 else field image 22 2) = geom.fatSize
  rootDirSectors : divCeil (geom.rootEntries * 32) 512 = geom.rootDirSectors
  signature : field image 510 2 = 0xAA55

theorem block_read (shaped : Shaped geom totalSectors)
    (boot : slice image 0 sector = bootSector geom params) : BlockRead geom image totalSectors := by
  have fields := boot_fields geom params
  have front := field_front boot
  have unit : sector = 512 := rfl
  have spc : geom.sectorsPerCluster < 2 ^ 8 := by
    have sizes := shaped.sizes
    simp at sizes
    omega
  have starts := shaped.starts
  have start : geom.dataStartSector =
      geom.reservedSectors + geom.numFats * geom.fatSize + geom.rootDirSectors := rfl
  have reserved : geom.reservedSectors < 2 ^ 16 ∧ geom.rootEntries < 2 ^ 16 ∧
      divCeil (geom.rootEntries * 32) 512 = geom.rootDirSectors := by
    cases kind : geom.fatType with
    | fat16 =>
        obtain ⟨_, one, entries, sectors, _⟩ := shaped.fat16 kind
        rw [one, entries, sectors]
        decide
    | fat32 =>
        obtain ⟨some, entries, sectors⟩ := shaped.fat32 kind
        rw [some, entries, sectors]
        decide
  refine
    { sectorBytes := by rw [front 11 2 (by omega), fields.sectorBytes]; rfl
      sectorsPerCluster := by
        rw [front 13 1 (by omega), fields.sectorsPerCluster, Nat.mod_eq_of_lt spc]
      reserved := by rw [front 14 2 (by omega), fields.reserved, Nat.mod_eq_of_lt reserved.1]
      fats := by rw [front 16 1 (by omega), fields.fats, shaped.fats]; rfl
      rootEntries := by
        rw [front 17 2 (by omega), fields.rootEntries, Nat.mod_eq_of_lt reserved.2.1]
      total := ?_
      fatSize := fun fits => ?_
      rootDirSectors := reserved.2.2
      signature := by rw [front 510 2 (by omega), fields.signature] }
  · rw [front 19 2 (by omega), front 32 4 (by omega), fields.total16, fields.total32, shaped.total]
    by_cases isSmall : geom.IsSmall
    · have few := isSmall.2
      rw [shaped.total] at few
      rw [if_pos isSmall, if_pos isSmall, Nat.mod_eq_of_lt (show totalSectors < 2 ^ 16 by omega),
        if_neg (by omega), Nat.mod_eq_of_lt (by omega)]
    · rw [if_neg isSmall, if_neg isSmall, if_pos (by rfl)]
  · rw [front 22 2 (by omega), front 36 4 (by omega), fields.fatSize16]
    cases kind : geom.fatType with
    | fat16 =>
        obtain ⟨_, _, _, _, some, few⟩ := shaped.fat16 kind
        rw [if_pos rfl, Nat.mod_eq_of_lt few, if_neg (by omega)]
    | fat32 =>
        have two := shaped.fats
        rw [two] at start
        have zero : (if FatType.fat32 = FatType.fat16 then geom.fatSize else 0) % 2 ^ 16 = 0 := rfl
        rw [if_pos zero, (fields.fat32 kind).1,
          Nat.mod_eq_of_lt (by omega)]

/-- A volume whose count of sectors has room in its field is read as its geometry, unless
it has more clusters than there are numbers. -/
theorem read_volume (shaped : Shaped geom totalSectors) (agrees : countAgrees geom)
    (boot : slice image 0 sector = bootSector geom params)
    (length : image.length = totalSectors * sector) (fits : totalSectors < 2 ^ 32) :
    readVolume image = if maxClusterCount < geom.clusterCount then none
      else some (geom.volume (field image 44 4)) := by
  have block := block_read shaped boot
  have starts := shaped.starts
  have sizes : geom.sectorsPerCluster ≠ 0 := by
    have member := shaped.sizes
    simp at member
    omega
  have total : (if field image 19 2 = 0 then field image 32 4 else field image 19 2) =
      totalSectors := by rw [block.total, Nat.mod_eq_of_lt fits]
  have start : geom.reservedSectors + geom.numFats * geom.fatSize + geom.rootDirSectors =
      geom.dataStartSector := rfl
  have many : ¬geom.clusterCount < 4085 := by
    rw [countAgrees] at agrees
    split at agrees <;> simp at agrees <;> omega
  have unit : totalSectors * 512 = image.length := length.symm
  simp only [readVolume, block.sectorBytes, block.sectorsPerCluster, block.reserved, block.fats,
    block.rootEntries, total, block.fatSize fits, block.rootDirSectors, block.signature, start,
    ← shaped.count]
  by_cases beyond : maxClusterCount < geom.clusterCount
  · rw [if_pos beyond, if_pos (by simp [beyond])]
  · rw [if_neg beyond, if_neg]
    · have type : (if geom.clusterCount < 65525 then FatType.fat16 else FatType.fat32) =
          geom.fatType := by
        rw [countAgrees] at agrees
        cases kind : geom.fatType with
        | fat16 =>
            simp only [kind, Bool.and_eq_true, decide_eq_true_eq] at agrees
            rw [if_pos (by omega)]
        | fat32 =>
            simp only [kind, decide_eq_true_eq] at agrees
            rw [if_neg (by omega)]
      rw [type]
      rfl
    · have after : ¬totalSectors < geom.dataStartSector := by omega
      simp [beyond, unit, sizes, after, many]

/-- A volume with more sectors than the field can say is refused. -/
theorem read_volume_overflow (shaped : Shaped geom totalSectors)
    (boot : slice image 0 sector = bootSector geom params)
    (length : image.length = totalSectors * sector) (large : 2 ^ 32 ≤ totalSectors) :
    readVolume image = none := by
  have block := block_read shaped boot
  have unit : sector = 512 := rfl
  have differs : totalSectors % 2 ^ 32 * 512 ≠ image.length := by
    rw [length, unit]
    omega
  simp only [readVolume, block.sectorBytes, block.total]
  exact if_pos (.inr (.inr (.inl differs)))

end Header

/-! ## The root directory -/

/-- The tree needs more clusters than there are, or more slots than the FAT16 root has. -/
def Exceeds (geom : Geometry) (root : Dir) : Prop :=
  match geom.fatType with
  | .fat16 => geom.rootEntries < contentSlots root true ∨ geom.clusterCount < needAll geom root
  | .fat32 => geom.clusterCount < dirClusters geom root true + needAll geom root

/-- The clusters of the root directory, none on FAT16. -/
def rootClusters (geom : Geometry) (root : Dir) : Nat :=
  match geom.fatType with
  | .fat16 => 0
  | .fat32 => dirClusters geom root true

/-- Where the root directory is, and how long. -/
def rootRegion (geom : Geometry) (root : Dir) : Nat × Nat :=
  match geom.fatType with
  | .fat16 => (geom.rootStartSector * sector, geom.rootEntries * 32)
  | .fat32 => (geom.clusterOffset 2, dirClusters geom root true * geom.clusterBytes)

/-- The root directory and all below it are stored. -/
structure RootStored (geom : Geometry) (params : Params) (totalBytes : Nat) (root : Dir)
    (b : Builder) : Prop where
  length : b.image.length = totalBytes
  entries : b.fat.length = geom.clusterCount + 2
  room : rootClusters geom root + needAll geom root ≤ geom.clusterCount
  padded : ∃ plan, planChildren root = some plan ∧
    Padded b.image (rootRegion geom root).1 (rootRegion geom root).2
      (openingEntries params true 2 0 ++ childBytes geom (2 + rootClusters geom root) plan root)
  linked : Linked geom.eoc b.fat 2 (rootClusters geom root)
  below : StoredAll geom params b.image b.fat 0 (2 + rootClusters geom root) root

section Root

variable {geom : Geometry} {params : Params} {totalBytes totalSectors : Nat}

theorem cluster_two (geom : Geometry) : geom.clusterOffset 2 = geom.dataStartSector * sector := by
  rw [Geometry.clusterOffset, Nat.sub_self, Nat.zero_mul, Nat.add_zero]

theorem blank_ready (laid : Laid geom totalBytes) : Ready geom (blank geom totalBytes) where
  low := Nat.le_refl 2
  high := Nat.le_add_left 2 _
  entries := by
    rw [blank, List.length_set, List.length_set, List.length_replicate]
  inside := by
    change _ ≤ (List.replicate totalBytes (0 : UInt8)).length
    rw [List.length_replicate, Geometry.clusterOffset, Nat.add_sub_cancel]
    exact laid.within
  zeros i _ within := by
    change (List.replicate totalBytes (0 : UInt8))[i]? = some 0
    change i < (List.replicate totalBytes (0 : UInt8)).length at within
    rw [List.length_replicate] at within
    rw [List.getElem?_replicate, if_pos within]

/-- The root region of FAT16 ends where the clusters begin. -/
theorem root_region_end (shaped : Shaped geom totalSectors) (kind : geom.fatType = .fat16) :
    geom.rootStartSector * sector + geom.rootEntries * 32 = geom.clusterOffset 2 := by
  obtain ⟨_, _, entries, sectors, _⟩ := shaped.fat16 kind
  rw [cluster_two, Geometry.dataStartSector, Nat.add_mul, entries, sectors]
  rfl

/-- On FAT16 the root goes into its region before the clusters. -/
theorem render_root16 (shaped : Shaped geom totalSectors) (laid : Laid geom totalBytes)
    (wide : 0 < geom.clusterBytes) (kind : geom.fatType = .fat16) (root : Dir)
    (planned : (planChildren root).isSome) (fields : root.HasFields) :
    Outcome (¬Exceeds geom root) (renderRoot geom params (blank geom totalBytes) root)
      (RootStored geom params totalBytes root) := by
  obtain ⟨plan, made⟩ := Option.isSome_iff_exists.mp planned
  have ready := blank_ready laid
  have ends := root_region_end shaped kind
  have length := dir_bytes_length geom params true 2 0 2 root plan made
  have clusters : rootClusters geom root = 0 := by simp only [rootClusters, kind]
  have region : rootRegion geom root = (geom.rootStartSector * sector, geom.rootEntries * 32) := by
    simp only [rootRegion, kind]
  simp only [renderRoot, Exceeds, kind]
  by_cases slots : geom.rootEntries < contentSlots root true
  · right
    exact ⟨fun fits => fits (.inl slots), _, _, if_pos slots⟩
  · rw [if_neg slots]
    simp only [renderDir, made]
    rcases @render_children _ params wide root _ 0 plan fields (plan_fields_planned made) ready with
      ⟨room, ⟨bytes, inside⟩, rendered, result⟩ | ⟨full, needed, available, failed⟩
    · left
      change 2 + needAll geom root ≤ geom.clusterCount + 2 at room
      have same : bytes = childBytes geom 2 plan root := result.bytes
      have used : inside.nextFree = 2 + needAll geom root := result.used
      have imageLength : inside.image.length = totalBytes :=
        result.grown.imageLength.trans List.length_replicate
      have inImage : geom.clusterOffset (geom.clusterCount + 2) ≤ totalBytes :=
        ready.inside.trans_eq List.length_replicate
      have last := @cluster_mono geom _ _ (show 2 ≤ geom.clusterCount + 2 by omega)
      simp only [if_true, rendered, bind, Except.bind]
      refine ⟨fun exceeds => ?_, _, rfl, ?_⟩
      · rcases exceeds with many | many <;> omega
      · refine
          { length := (length_put _ _ _).trans imageLength
            entries := result.grown.fatLength.trans ready.entries
            room := by rw [clusters]; omega
            padded := ⟨plan, made, ?_⟩
            linked := by
              rw [clusters]
              exact fun i low high => absurd high (by omega)
            below := ?_ }
        · rw [region, clusters, same]
          apply padded_put
          · change geom.rootStartSector * sector + geom.rootEntries * 32 ≤ inside.image.length
            omega
          · exact length.trans_le (Nat.mul_le_mul_right 32 (Nat.le_of_not_lt slots))
          · intro i _ before
            rw [ends] at before
            rw [result.grown.image i (.inl before)]
            change (List.replicate totalBytes (0 : UInt8))[i]? = some 0
            rw [List.getElem?_replicate, if_pos (by omega)]
        · rw [clusters]
          have below := result.stored
          have agree : Agree geom 2 inside.nextFree inside.image inside.fat
              (storeDir geom inside none (openingEntries params true 0 0 ++ bytes)).image inside.fat := by
            refine ⟨fun i after _ => ?_, fun _ _ _ => rfl⟩
            change (put inside.image _ _)[i]? = _
            rw [get_put, if_neg]
            have size : (openingEntries params true 0 0 ++ bytes).length = contentSlots root true * 32 := by
              rw [same]
              exact length
            rw [size]
            omega
          exact stored_all_agree root 0 2 2 inside.nextFree (Nat.le_refl 2) wide (Nat.le_refl 2)
            (by rw [used]) agree below
    · right
      change ¬2 + needAll geom root ≤ geom.clusterCount + 2 at full
      refine ⟨fun fits => fits (.inr (by omega)), needed, available, ?_⟩
      simp only [if_true, failed, bind, Except.bind]

/-- On FAT32 the root has the first chain. -/
theorem render_root32 (laid : Laid geom totalBytes) (wide : 0 < geom.clusterBytes)
    (kind : geom.fatType = .fat32) (root : Dir) (planned : (planChildren root).isSome)
    (fields : root.HasFields) :
    Outcome (¬Exceeds geom root) (renderRoot geom params (blank geom totalBytes) root)
      (RootStored geom params totalBytes root) := by
  obtain ⟨plan, made⟩ := Option.isSome_iff_exists.mp planned
  have ready := blank_ready laid
  have clusters : rootClusters geom root = dirClusters geom root true := by
    simp only [rootClusters, kind]
  have region : rootRegion geom root =
      (geom.clusterOffset 2, dirClusters geom root true * geom.clusterBytes) := by
    simp only [rootRegion, kind]
  have own := dir_clusters_pos geom root true
  have start : (blank geom totalBytes).nextFree = 2 := rfl
  simp only [renderRoot, Exceeds, kind]
  by_cases first : (blank geom totalBytes).nextFree + dirClusters geom root true ≤ geom.clusterCount + 2
  · have taken : Ready geom (handOut geom (blank geom totalBytes) (dirClusters geom root true)) :=
      ready.grown (grown_hand_out geom _ _) first
    simp only [alloc_chain_ok own first, bind, Except.bind, renderDir, made]
    rcases @render_children _ params wide root _ 0 plan fields (plan_fields_planned made) taken with
      ⟨room, ⟨bytes, inside⟩, rendered, result⟩ | ⟨full, needed, available, failed⟩
    · left
      change 2 + dirClusters geom root true + needAll geom root ≤ geom.clusterCount + 2 at room
      have same : bytes = childBytes geom (2 + dirClusters geom root true) plan root := result.bytes
      have used : inside.nextFree = 2 + dirClusters geom root true + needAll geom root := result.used
      have length := dir_bytes_length geom params true 2 0 (2 + dirClusters geom root true) root plan made
      have fits := dir_clusters_wide wide root true
      have filled := filled_chain ready first result.grown (length.trans_le fits)
      have written := write_clusters_put geom inside.image 2 (dirClusters geom root true) _
        (Nat.le_refl 2) (length.trans_le fits)
      have put : storeDir geom inside (some (List.range' 2 (dirClusters geom root true)))
          (openingEntries params true fat32RootCluster 0 ++ bytes) =
            fill geom 2 inside (openingEntries params true 2 0 ++ bytes) := by
        rw [storeDir, same]
        change (⟨writeClusters geom inside.image _ (openingEntries params true 2 0 ++ _), _, _⟩ : Builder) = _
        rw [written]
        rfl
      rw [start]
      simp only [if_true, rendered, put]
      refine ⟨by omega, _, rfl, ?_⟩
      rw [same]
      exact
        { length := filled.grown.imageLength.trans List.length_replicate
          entries := filled.grown.fatLength.trans ready.entries
          room := by rw [clusters]; omega
          padded := ⟨plan, made, by rw [region, clusters]; exact filled.padded⟩
          linked := by rw [clusters]; exact filled.linked
          below := by
            rw [clusters]
            exact stored_all_agree root 0 _ (2 + dirClusters geom root true) inside.nextFree
              (by omega) wide (Nat.le_refl _) used.ge filled.agree result.stored }
    · right
      change ¬2 + dirClusters geom root true + needAll geom root ≤ geom.clusterCount + 2 at full
      refine ⟨by omega, needed, available, ?_⟩
      simp only [if_true, failed]
  · right
    obtain ⟨needed, available, full⟩ := alloc_chain_full first
    rw [start] at first
    refine ⟨by omega, needed, available, ?_⟩
    simp only [full, bind, Except.bind]

theorem render_root (shaped : Shaped geom totalSectors) (laid : Laid geom totalBytes)
    (wide : 0 < geom.clusterBytes) (root : Dir) (planned : (planChildren root).isSome)
    (fields : root.HasFields) :
    Outcome (¬Exceeds geom root) (renderRoot geom params (blank geom totalBytes) root)
      (RootStored geom params totalBytes root) := by
  cases kind : geom.fatType with
  | fat16 => exact render_root16 shaped laid wide kind root planned fields
  | fat32 => exact render_root32 laid wide kind root planned fields

end Root

/-! ## The tree recovered -/

/-- A reader passes over the volume's label, unless it begins with a NUL. -/
theorem parse_label (label : FixedBytes 11) (rest : List Bytes) :
    parseEntries [] (entry label.bytes 0 0 attrVolumeId :: rest) =
      if field label.bytes 0 1 = 0 then [] else parseEntries [] rest := by
  have attr : field (entry label.bytes 0 0 attrVolumeId) 11 1 = 8 := entry_attr _ _ _ _
  have skipped : ¬8 % 64 = 0x0F ∧ 8 / 8 % 2 = 1 := by decide
  rw [parseEntries, entry_first_byte 0 0 attrVolumeId label.size, attr, if_neg skipped.1,
    if_pos skipped.2, ite_self]

theorem entries_of_root (geom : Geometry) (params : Params) (dir : Dir) (self parent next count : Nat)
    (plan : List (Bytes × Option String)) (made : planChildren dir = some plan) (valid : dir.Valid)
    (small : dir.Small) (room : next + needAll geom dir < 2 ^ 32) :
    entriesOf (openingEntries params true self parent ++ childBytes geom next plan dir ++
        List.replicate count 0) =
      if field params.volumeLabel.bytes 0 1 = 0 then [] else childEntries geom next plan dir := by
  have planned := plan_fields_planned made
  have opening : openingEntries params true self parent =
      entry params.volumeLabel.bytes 0 0 attrVolumeId := if_pos rfl
  have length := length_entry params.volumeLabel.bytes 0 0 attrVolumeId
  have childrenWhole := child_bytes_length geom dir next plan planned
  rw [entriesOf, opening, List.append_assoc, records_append _ _ (by rw [length]),
    records_append _ _ (by rw [childrenWhole, Nat.mul_mod_left]), records_one _ length,
    List.singleton_append, parse_label,
    parse_children geom dir next plan _ planned valid small room, parse_zeros, List.append_nil]

section Recover

variable {geom : Geometry} {params : Params} {totalBytes totalSectors : Nat} {root : Dir}
  {b : Builder} {image : Bytes}

/-- A finished volume as a reader sees it. -/
theorem mounts_finished (agrees : countAgrees geom)
    (laid : Laid geom totalBytes) (finished : Finished geom params b image)
    (length : b.image.length = totalBytes) (entries : b.fat.length = geom.clusterCount + 2)
    (wide : 0 < geom.clusterBytes) (few : geom.clusterCount ≤ maxClusterCount) (rootCluster : Nat) :
    Mounts (geom.volume rootCluster) image geom b.fat := by
  have bound : maxClusterCount = 0x0FFFFFF5 := rfl
  have marks : geom.clusterCount + 1 ≤ geom.eoc ∧
      (geom.volume rootCluster).isEoc geom.eoc = true ∧
        ∀ i, i ≤ geom.clusterCount + 1 → (geom.volume rootCluster).isEoc i = false := by
    have type : (geom.volume rootCluster).fatType = geom.fatType := rfl
    cases kind : geom.fatType with
    | fat16 =>
        simp only [countAgrees, kind, Bool.and_eq_true, decide_eq_true_eq] at agrees
        simp only [Geometry.eoc, Volume.isEoc, type, kind]
        exact ⟨by omega, by decide, fun i below => decide_eq_false (by omega)⟩
    | fat32 =>
        simp only [Geometry.eoc, Volume.isEoc, type, kind]
        exact ⟨by omega, by decide, fun i below => decide_eq_false (by omega)⟩
  exact
    { count := rfl
      bytes := rfl
      data := rfl
      table := fun c value found fits =>
        next_read finished entries (geom.volume rootCluster) rfl rfl c value found fits
      ends := marks.2.1
      goes := marks.2.2
      marks := marks.1
      inside := by
        rw [finished.length, length, Geometry.clusterOffset, Nat.add_sub_cancel]
        exact laid.within
      wide
      few := by omega }

/-- The tree of a finished volume is the one stored in it. -/
theorem read_tree (mounts : Mounts (geom.volume (field image 44 4))
      image geom b.fat) (finished : Finished geom params b image)
    (stored : RootStored geom params totalBytes root b) (valid : root.Valid) (small : root.Small)
    (read : readVolume image = some (geom.volume (field image 44 4))) :
    readTree image = some (List.range' 2 (rootClusters geom root),
      if field params.volumeLabel.bytes 0 1 = 0 then []
      else foundAll geom 0 (2 + rootClusters geom root) root) := by
  obtain ⟨plan, made, padded⟩ := stored.padded
  have room := stored.room
  have few := mounts.few
  have two := cluster_two geom
  have deep := depth_le geom root
  have start : geom.rootStartSector * sector ≤ geom.clusterOffset 2 := by
    rw [two]
    exact Nat.mul_le_mul_right sector (Nat.le_add_right _ _)
  have behind : geom.rootStartSector * sector ≤ (rootRegion geom root).1 := by
    rw [rootRegion]
    cases geom.fatType with
    | fat16 => exact Nat.le_refl _
    | fat32 => exact start
  have bytes : slice image (rootRegion geom root).1 (rootRegion geom root).2 = _ :=
    (slice_congr image b.image _ _ fun i after _ => finished.behind i (by omega)).trans padded
  have below : StoredAll geom params image b.fat 0 (2 + rootClusters geom root) root := by
    apply stored_all_agree root 0 _ 2 (geom.clusterCount + 2) (by omega) mounts.wide (by omega)
      (by omega) _ stored.below
    exact ⟨fun i after _ => finished.behind i (by omega), fun _ _ _ => rfl⟩
  have children := read_all mounts params root plan 0 (2 + rootClusters geom root)
    (geom.clusterCount + 1) (plan_fields_planned made) valid small (by omega) (by omega) (by omega)
    (by omega) below
  have listed := entries_of_root geom params root 2 0 (2 + rootClusters geom root)
    ((rootRegion geom root).2 - (openingEntries params true 2 0 ++
      childBytes geom (2 + rootClusters geom root) plan root).length) plan made valid small (by omega)
  rw [← bytes] at listed
  have tree : readEntries (geom.volume (field image 44 4)) image (geom.clusterCount + 1)
      (entriesOf (slice image (rootRegion geom root).1 (rootRegion geom root).2)) =
        some (if field params.volumeLabel.bytes 0 1 = 0 then []
          else foundAll geom 0 (2 + rootClusters geom root) root) := by
    rw [listed]
    split_ifs
    · rfl
    · exact children
  have linked := stored.linked
  have count : (geom.volume (field image 44 4)).clusterCount = geom.clusterCount := rfl
  have type : (geom.volume (field image 44 4)).fatType = geom.fatType := rfl
  rw [readTree, read]
  simp only [Option.bind_eq_bind, Option.bind_some, count, type]
  cases kind : geom.fatType with
  | fat16 =>
      simp only [rootRegion, rootClusters, kind] at tree
      simp only [rootClusters, kind]
      change (readEntries (geom.volume (field image 44 4)) image (geom.clusterCount + 1)
        (entriesOf (slice image (geom.rootStartSector * sector) (geom.rootEntries * 32)))).bind _ = _
      rw [tree]
      rfl
  | fat32 =>
      have rootCluster : field image 44 4 = 2 := by
        rw [field_front finished.boot 44 4 (by decide), ((boot_fields geom params).fat32 kind).2]
        rfl
      have own := dir_clusters_pos geom root true
      simp only [rootRegion, rootClusters, kind] at tree linked room
      simp only [rootClusters, kind]
      change ((geom.volume (field image 44 4)).chainFrom image (field image 44 4)).bind _ = _
      rw [rootCluster] at mounts tree ⊢
      rw [chain_read mounts linked (Nat.le_refl 2) own (by omega)]
      simp only [Option.bind_some, contents_read mounts (Nat.le_refl 2), tree]

end Recover

/-! ## Volumes of whole MiB -/

/-- The largest volume whose clusters all have numbers below the marks of the table: with
clusters of 4 KiB, a little over a TiB. -/
def maxMib : Nat := 1050625

/-- The formula leaves a FAT16 table of whole MiB the slack it needs. -/
theorem mib_slack_small : ∀ mib < 64,
    (match geometry (mib * 2048) with
      | .ok geom => !countAgrees geom || decide geom.HasSlack
      | .error _ => true) = true := by
  decide

section Mib

variable {mib : Nat} {geom : Geometry}

theorem mib_slack (found : geometry (mib * 2048) = .ok geom) (agrees : countAgrees geom) :
    geom.HasSlack := by
  by_cases small : mib < 64
  · have slack := mib_slack_small mib small
    rw [found] at slack
    simpa [agrees] using slack
  · rw [geometry, if_pos (by omega)] at found
    rw [← Except.ok.inj found]
    exact .inl rfl

theorem mib_count (found : geometry (mib * 2048) = .ok geom) (agrees : countAgrees geom) :
    geom.clusterCount ≤ maxClusterCount ↔ mib ≤ maxMib := by
  have limit : maxClusterCount = 0x0FFFFFF5 := rfl
  have largest : maxMib = 1050625 := rfl
  rw [geometry] at found
  split_ifs at found with large
  · rw [← Except.ok.inj found]
    have count : (fat32Geometry (mib * 2048)).clusterCount =
        (mib * 2048 - (32 + 2 * ((mib * 2048 - 32 + ((256 * fat32Spc (mib * 2048) + 2) / 2 - 1)) /
          ((256 * fat32Spc (mib * 2048) + 2) / 2)))) / fat32Spc (mib * 2048) := rfl
    rw [count, limit, largest, fat32Spc]
    simp only [Nat.mul_div_cancel mib (show 0 < 2048 by decide)]
    split_ifs <;> omega
  · obtain ⟨spc, _, rfl⟩ := fat16_search_ok found
    have few : (fat16Geometry (mib * 2048) spc).clusterCount ≤ 65524 := by
      have kind : (fat16Geometry (mib * 2048) spc).fatType = .fat16 := rfl
      simp only [countAgrees, kind, Bool.and_eq_true, decide_eq_true_eq] at agrees
      exact agrees.2
    exact iff_of_true (by omega) (by omega)

theorem mib_sectors (mib : Nat) : mib * 2 ^ 20 / sector = mib * 2048 ∧ mib * 2 ^ 20 % sector = 0 ∧
    mib * 2048 * sector = mib * 2 ^ 20 := by
  rw [sector]
  omega

/-- Past its checks `format` renders the tree and finishes the volume. -/
theorem format_found {totalBytes : Nat} (whole : totalBytes % sector = 0)
    (found : geometry (totalBytes / sector) = .ok geom) (agrees : countAgrees geom) (params : Params)
    (root : Dir) : format totalBytes root params =
      (renderRoot geom params (blank geom totalBytes) root).map (finish geom params) := by
  rw [format, if_neg (not_not.mpr whole), found]
  simp only [bind, Except.bind, agrees, not_true_eq_false, if_false]
  cases renderRoot geom params (blank geom totalBytes) root <;> rfl

/-- Formatting a volume answers that it is full exactly when the tree exceeds it; else what
it answers is the volume with the tree stored. -/
theorem format_outcome (found : geometry (mib * 2048) = .ok geom) (agrees : countAgrees geom)
    (params : Params) (root : Dir) (planned : (planChildren root).isSome) (fields : root.HasFields) :
    Outcome (¬Exceeds geom root) (format (mib * 2 ^ 20) root params) fun image =>
      ∃ b, RootStored geom params (mib * 2 ^ 20) root b ∧ Finished geom params b image := by
  obtain ⟨sectors, whole, bytes⟩ := mib_sectors mib
  have shaped := geometry_shaped found agrees
  obtain ⟨laid, roomy⟩ := geometry_laid found (count_positive agrees)
  rw [bytes] at laid
  have wide : 0 < geom.clusterBytes :=
    Nat.lt_of_lt_of_le (by decide) (geometry_sizes found).1
  have formatted := format_found whole (by rw [sectors]; exact found) agrees params root
  rw [formatted]
  rcases @render_root _ params _ _ shaped laid wide root planned fields with
    ⟨room, b, rendered, stored⟩ | ⟨full, needed, available, failed⟩
  · left
    refine ⟨room, finish geom params b, by rw [rendered]; rfl, b, stored, ?_⟩
    apply finished_image params b laid (roomy.mpr (mib_slack found agrees)) stored.entries
    have within := laid.within
    have start : geom.rootStartSector * sector ≤
        (geom.dataStartSector + geom.clusterCount * geom.sectorsPerCluster) * sector :=
      Nat.mul_le_mul_right sector (by rw [Geometry.dataStartSector]; omega)
    rw [stored.length]
    omega
  · right
    exact ⟨full, needed, available, by rw [failed]; rfl⟩

/-- A volume with the tree stored is read back as that tree exactly when its clusters have
numbers and its label does not end the root directory. -/
theorem recovers_iff (found : geometry (mib * 2048) = .ok geom) (agrees : countAgrees geom)
    (params : Params) (root : Dir) (valid : root.Valid) (small : root.Small) (b : Builder)
    (image : Bytes) (stored : RootStored geom params (mib * 2 ^ 20) root b)
    (finished : Finished geom params b image) :
    Recovers image root ↔
      mib ≤ maxMib ∧ (field params.volumeLabel.bytes 0 1 ≠ 0 ∨ root = .nil) := by
  obtain ⟨_, _, bytes⟩ := mib_sectors mib
  have shaped := geometry_shaped found agrees
  obtain ⟨laid, _⟩ := geometry_laid found (count_positive agrees)
  rw [bytes] at laid
  have wide : 0 < geom.clusterBytes :=
    Nat.lt_of_lt_of_le (by decide) (geometry_sizes found).1
  have length : image.length = mib * 2048 * sector := by rw [finished.length, stored.length, bytes]
  have limit := mib_count found agrees
  have largest : maxMib = 1050625 := rfl
  by_cases few : mib ≤ maxMib
  · have counted := limit.mpr few
    have read := read_volume shaped agrees finished.boot length (by omega)
    rw [if_neg (by omega)] at read
    have mounts := mounts_finished agrees laid finished stored.length stored.entries wide counted
      (field image 44 4)
    have tree := read_tree mounts finished stored valid small read
    constructor
    · rintro ⟨chain, entries, again, same, _⟩
      refine ⟨few, ?_⟩
      rw [tree] at again
      by_cases ended : field params.volumeLabel.bytes 0 1 = 0
      · rw [if_pos ended] at again
        cases again
        right
        cases root with
        | nil => rfl
        | cons key name node rest => exact absurd same id
      · exact .inl ended
    · rintro ⟨_, labelled⟩
      have nodup : (List.range' 2 (rootClusters geom root) ++
          clustersAll (foundAll geom 0 (2 + rootClusters geom root) root)).Nodup := by
        rw [clusters_all_found, List.range'_append_1]
        exact List.nodup_range'
      refine ⟨_, _, tree, ?_⟩
      split_ifs with ended
      · rcases labelled with unended | rfl
        · exact absurd ended unended
        · exact ⟨trivial, trivial, nodup⟩
      · exact ⟨same_dir_found geom root 0 _, dotted_all_found geom root 0 _, nodup⟩
  · have none : readVolume image = none := by
      by_cases large : 2 ^ 32 ≤ mib * 2048
      · exact read_volume_overflow shaped finished.boot length large
      · have read := read_volume shaped agrees finished.boot length (by omega)
        rwa [if_pos (by omega)] at read
    constructor
    · rintro ⟨chain, entries, read, _⟩
      rw [readTree, none] at read
      cases read
    · exact fun ⟨fits, _⟩ => absurd fits few

end Mib

end HorizonOs.Keybuild.Fat
