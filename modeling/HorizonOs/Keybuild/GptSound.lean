import HorizonOs.Keybuild.GptLayout

/-!
# The disk is sound

The table `build` makes and the partitions it lays share the disk without touching,
both headers tell the truth about it, and `write_disk` writes each piece into its
own region.
-/

namespace HorizonOs.Keybuild.Gpt

open HorizonOs.Lib.ByteCodec HorizonOs.Lib.Buffer HorizonOs.Lib.Text

set_option autoImplicit false

/-- The header at LBA 1. -/
def Disk.primary (disk : Disk) : Bytes := slice disk.front sector sector

/-- The header in the last sector. -/
def Disk.backup (disk : Disk) : Bytes := slice disk.back (entryArraySectors * sector) sector

def Disk.primaryEntries (disk : Disk) : Bytes :=
  slice disk.front (2 * sector) (entryCount * entrySize)

def Disk.backupEntries (disk : Disk) : Bytes := slice disk.back 0 (entryCount * entrySize)

/-- What a whole disk promises. -/
structure Sound (specs : List PartSpec) (disk : Disk) : Prop where
  fits : List.Forall₂ Fits specs disk.parts
  contiguous : Contiguous alignSectors disk.parts (disk.backOffset / sector)
  disjoint : disk.parts.Pairwise fun a b => a.offset + a.size ≤ b.offset
  between : ∀ pl ∈ disk.parts,
    disk.front.length ≤ pl.offset ∧ pl.offset + pl.size ≤ disk.backOffset
  apart : disk.front.length ≤ disk.backOffset
  ends : disk.backOffset + disk.back.length = disk.totalBytes
  primary : HeaderValid disk.primary disk.primaryEntries
  backup : HeaderValid disk.backup disk.backupEntries
  sameEntries : disk.primaryEntries = disk.backupEntries
  entries : ∀ i (spec : i < specs.length) (placed : i < disk.parts.length),
    EntryRead disk.primaryEntries i specs[i] disk.parts[i]
  primaryLba : headerMyLba disk.primary * sector = sector ∧
    headerMyLba disk.primary = headerAltLba disk.backup
  backupLba : (headerMyLba disk.backup + 1) * sector = disk.totalBytes ∧
    headerMyLba disk.backup = headerAltLba disk.primary
  primaryArray : headerEntriesLba disk.primary = 2
  backupArray : headerEntriesLba disk.backup * sector = disk.backOffset
  usable : ∀ pl ∈ disk.parts,
    headerFirstUsable disk.primary ≤ pl.firstLba ∧ pl.lastLba ≤ headerLastUsable disk.primary
  sameUsable : headerFirstUsable disk.backup = headerFirstUsable disk.primary ∧
    headerLastUsable disk.backup = headerLastUsable disk.primary

/-- The sectors of the disk that holds images of these sizes. -/
def diskSectors (sizes : List Nat) : Nat :=
  alignSectors + (sizes.map regionSectors).sum + entryArraySectors + 1

/-- Sizes that do not overflow: the disk's size in bytes is a u64. -/
def NoOverflow (sizes : List Nat) : Prop := diskSectors sizes * sector < 2 ^ 64

/-! ## What `build` makes -/

/-- The entry array of a table. -/
def entryArray (specs : List PartSpec) : Bytes :=
  putEntries (List.replicate (entryCount * entrySize) 0) 0
    (specs.zip (place alignSectors specs).1)

theorem length_entry_array (specs : List PartSpec) :
    (entryArray specs).length = entryCount * entrySize := by
  rw [entryArray, length_put_entries, List.length_replicate]

theorem length_header (a : HeaderArgs) : (header a).length = sector := by
  rw [header, length_put, length_header_fields, sector]

theorem length_write_pmbr (s : Bytes) (totalSectors : Nat) :
    (writePmbr s totalSectors).length = s.length := by
  simp only [writePmbr, length_put]

/-- The pieces of the table, each read from where `frame` put it. -/
structure Framed (diskGuid : Guid) (placed : List Placed) (cursor : Nat) (entries : Bytes)
    (disk : Disk) : Prop where
  parts : disk.parts = placed
  totalBytes : disk.totalBytes = (cursor + entryArraySectors + 1) * sector
  backOffset : disk.backOffset = cursor * sector
  front : disk.front.length = firstUsable * sector
  back : disk.back.length = (entryArraySectors + 1) * sector
  primary : disk.primary = header ⟨1, cursor + entryArraySectors, firstUsable, cursor - 1, diskGuid,
    entriesLba, crc32 entries⟩
  backup : disk.backup = header ⟨cursor + entryArraySectors, 1, firstUsable, cursor - 1, diskGuid,
    cursor, crc32 entries⟩
  primaryEntries : disk.primaryEntries = entries
  backupEntries : disk.backupEntries = entries

theorem frame_framed (diskGuid : Guid) (placed : List Placed) (cursor : Nat) (entries : Bytes)
    (size : entries.length = entryCount * entrySize) :
    Framed diskGuid placed cursor entries (frame diskGuid placed cursor entries) where
  parts := rfl
  totalBytes := rfl
  backOffset := rfl
  front := by
    simp only [frame, length_put, length_write_pmbr, List.length_replicate]
  back := by
    simp only [frame, length_put, List.length_replicate]
  primary := by
    have end_ : sector + sector ≤ sector * 2 := by decide
    have room : sector + sector ≤ firstUsable * sector := by decide
    simp only [Disk.primary, frame]
    rw [slice_put_apart _ _ _ _ _ (.inl end_), slice_put_self _ _ _ _ (length_header _)]
    · rfl
    · rw [length_write_pmbr, List.length_replicate]
      exact room
  backup := by
    have room : entryArraySectors * sector + sector ≤ (entryArraySectors + 1) * sector := by decide
    simp only [Disk.backup, frame]
    rw [slice_put_self _ _ _ _ (length_header _)]
    · rfl
    · rw [length_put, List.length_replicate]
      exact room
  primaryEntries := by
    have room : 2 * sector + entryCount * entrySize ≤ firstUsable * sector := by decide
    simp only [Disk.primaryEntries, frame, Nat.mul_comm sector 2]
    apply slice_put_self _ _ _ _ size
    rw [length_put, length_write_pmbr, List.length_replicate]
    exact room
  backupEntries := by
    have before : 0 + entryCount * entrySize ≤ entryArraySectors * sector := by decide
    have room : 0 + entryCount * entrySize ≤ (entryArraySectors + 1) * sector := by decide
    simp only [Disk.backupEntries, frame]
    rw [slice_put_apart _ _ _ _ _ (.inl before), slice_put_self _ _ _ _ size]
    rw [List.length_replicate]
    exact room

theorem build_eq (diskGuid : Guid) (specs : List PartSpec) (few : specs.length ≤ entryCount) :
    build diskGuid specs = some (frame diskGuid (place alignSectors specs).1
      (place alignSectors specs).2 (entryArray specs)) := by
  have start : alignUp firstUsable alignSectors = alignSectors := by decide
  have within : (specs.zip (place alignSectors specs).1).length ≤ entryCount := by
    rw [List.length_zip, place_length, Nat.min_self]
    exact few
  simp only [build, start, buildEntries, if_pos within, Option.map_some]
  rfl

/-! ## The promises hold -/

/-- The disk's sectors are the cursor's and the backup's. -/
theorem disk_sectors (specs : List PartSpec) (nonempty : ∀ p ∈ specs, 0 < p.size) :
    diskSectors (specs.map PartSpec.size) =
      (place alignSectors specs).2 + entryArraySectors + 1 := by
  rw [place_stop alignSectors specs nonempty, diskSectors, List.map_map]
  rfl

theorem placed_region {specs : List PartSpec} {placed : List Placed}
    (fits : List.Forall₂ Fits specs placed) :
    ∀ pl ∈ placed, pl.offset = pl.firstLba * sector ∧
      pl.offset + pl.size = (pl.lastLba + 1) * sector := by
  induction fits with
  | nil => exact fun pl member => absurd member List.not_mem_nil
  | cons first _ ih =>
      intro pl member
      rcases List.mem_cons.mp member with rfl | later
      · exact ⟨first.offset, first.region⟩
      · exact ih pl later

theorem regions_disjoint {specs : List PartSpec} {placed : List Placed} {start stop : Nat}
    (fits : List.Forall₂ Fits specs placed) (contiguous : Contiguous start placed stop) :
    placed.Pairwise fun a b => a.offset + a.size ≤ b.offset := by
  apply List.Pairwise.imp_of_mem _ contiguous.pairwise
  intro a b left right before
  rw [(placed_region fits a left).2, (placed_region fits b right).1]
  exact Nat.mul_le_mul_right sector before

/-- The array describes the partitions, where their sectors fit its fields. -/
theorem entry_array_read (specs : List PartSpec) (few : specs.length ≤ entryCount)
    (nonempty : ∀ p ∈ specs, 0 < p.size) (fit : (place alignSectors specs).2 < 2 ^ 64) (i : Nat)
    (spec : i < specs.length) (placed : i < (place alignSectors specs).1.length) :
    EntryRead (entryArray specs) i specs[i] (place alignSectors specs).1[i] := by
  have inside : i < (specs.zip (place alignSectors specs).1).length := by
    rw [List.length_zip]
    omega
  have room : (specs.zip (place alignSectors specs).1).length * entrySize ≤
      (List.replicate (entryCount * entrySize) (0 : UInt8)).length := by
    rw [List.length_replicate, List.length_zip, place_length, Nat.min_self]
    exact Nat.mul_le_mul_right entrySize few
  have order := ((place_fits alignSectors specs nonempty (by decide)).get spec placed).order
  have bound := (place_contiguous alignSectors specs nonempty).bounds.2 _ (List.getElem_mem placed)
  have last : (place alignSectors specs).1[i].lastLba < 2 ^ 64 := by omega
  have first : (place alignSectors specs).1[i].firstLba < 2 ^ 64 := Nat.lt_of_le_of_lt order last
  have read := entries_read (List.replicate (entryCount * entrySize) 0)
    (specs.zip (place alignSectors specs).1) room i inside
  rw [List.getElem_zip] at read
  exact read first last

theorem build_sound (diskGuid : Guid) (specs : List PartSpec) (few : specs.length ≤ entryCount)
    (nonempty : ∀ p ∈ specs, 0 < p.size) (fit : NoOverflow (specs.map PartSpec.size)) :
    ∃ disk, build diskGuid specs = some disk ∧ Sound specs disk := by
  refine ⟨_, build_eq diskGuid specs few, ?_⟩
  have fits := place_fits alignSectors specs nonempty (by decide)
  have contiguous := place_contiguous alignSectors specs nonempty
  have within := contiguous.bounds
  have size := length_entry_array specs
  rw [NoOverflow, disk_sectors specs nonempty] at fit
  have framed := frame_framed diskGuid (place alignSectors specs).1 (place alignSectors specs).2
    (entryArray specs) size
  generalize frame diskGuid (place alignSectors specs).1 (place alignSectors specs).2
    (entryArray specs) = disk at framed
  have below : (place alignSectors specs).2 + entryArraySectors < 2 ^ 64 := by
    simp only [sector] at fit
    omega
  have stop : (place alignSectors specs).2 < 2 ^ 64 := by omega
  have last : (place alignSectors specs).2 - 1 < 2 ^ 64 := by omega
  have one : 1 < 2 ^ 64 := by decide
  have usable : firstUsable < 2 ^ 64 := by decide
  have second : entriesLba < 2 ^ 64 := by decide
  have usableStart : firstUsable ≤ alignSectors := by decide
  obtain ⟨ownLba, otherLba, low, high, entries⟩ := header_numbers
    ⟨1, (place alignSectors specs).2 + entryArraySectors, firstUsable,
      (place alignSectors specs).2 - 1, diskGuid, entriesLba, crc32 (entryArray specs)⟩
    last one below usable second
  obtain ⟨ownLba', otherLba', low', high', entries'⟩ := header_numbers
    ⟨(place alignSectors specs).2 + entryArraySectors, 1, firstUsable,
      (place alignSectors specs).2 - 1, diskGuid, (place alignSectors specs).2,
      crc32 (entryArray specs)⟩
    last below one usable stop
  rw [← framed.primary] at ownLba otherLba low high entries
  rw [← framed.backup] at ownLba' otherLba' low' high' entries'
  constructor
  · rw [framed.parts]
    exact fits
  · rw [framed.parts, framed.backOffset, Nat.mul_div_cancel _ (by decide)]
    exact contiguous
  · rw [framed.parts]
    exact regions_disjoint fits contiguous
  · intro pl member
    rw [framed.parts] at member
    obtain ⟨offset, region⟩ := placed_region fits pl member
    have bound := within.2 pl member
    rw [framed.front, framed.backOffset, region, offset]
    exact ⟨Nat.mul_le_mul_right sector (usableStart.trans bound.1),
      Nat.mul_le_mul_right sector bound.2⟩
  · rw [framed.front, framed.backOffset]
    exact Nat.mul_le_mul_right sector (usableStart.trans within.1)
  · rw [framed.backOffset, framed.back, framed.totalBytes, ← Nat.add_mul, Nat.add_assoc]
  · rw [framed.primary, framed.primaryEntries]
    exact header_valid _ _ rfl size
  · rw [framed.backup, framed.backupEntries]
    exact header_valid _ _ rfl size
  · rw [framed.primaryEntries, framed.backupEntries]
  · intro i spec placed
    simp only [framed.primaryEntries, framed.parts]
    exact entry_array_read specs few nonempty stop i spec _
  · rw [ownLba, otherLba']
    exact ⟨Nat.one_mul sector, rfl⟩
  · rw [ownLba', otherLba, framed.totalBytes]
    exact ⟨rfl, rfl⟩
  · exact entries
  · rw [entries', framed.backOffset]
  · intro pl member
    rw [framed.parts] at member
    have bound := within.2 pl member
    rw [low, high]
    exact ⟨usableStart.trans bound.1, Nat.le_sub_one_of_lt bound.2⟩
  · rw [low, low', high, high']
    exact ⟨rfl, rfl⟩

/-! ## Writing the disk -/

/-- The sizes of the images, as the host's files have them. -/
def imageSizes (files : Files) (parts : List DiskPart) : List Nat :=
  parts.map fun p => ((files p.image).getD []).length

/-- The regions of a disk, in the order they are written: offset and length. -/
def Disk.regions (disk : Disk) : List (Nat × Nat) :=
  (0, disk.front.length) :: (disk.backOffset, disk.back.length) ::
    disk.parts.map fun pl => (pl.offset, pl.size)

/-- A write that stays in its region. -/
def Inside (write : Nat × Bytes) (region : Nat × Nat) : Prop :=
  region.1 ≤ write.1 ∧ write.1 + write.2.length ≤ region.1 + region.2

def Apart (left right : Nat × Nat) : Prop :=
  left.1 + left.2 ≤ right.1 ∨ right.1 + right.2 ≤ left.1

theorem Sound.regions_apart {specs : List PartSpec} {disk : Disk} (sound : Sound specs disk) :
    disk.regions.Pairwise Apart := by
  have parts : (disk.parts.map fun pl => (pl.offset, pl.size)).Pairwise Apart := by
    rw [List.pairwise_map]
    exact sound.disjoint.imp fun before => .inl before
  refine .cons ?_ (.cons ?_ parts)
  · intro region member
    rcases List.mem_cons.mp member with rfl | later
    · exact .inl ((Nat.zero_add _).trans_le sound.apart)
    · obtain ⟨pl, inside, rfl⟩ := List.mem_map.mp later
      exact .inl ((Nat.zero_add _).trans_le (sound.between pl inside).1)
  · intro region member
    obtain ⟨pl, inside, rfl⟩ := List.mem_map.mp member
    exact .inr (sound.between pl inside).2

theorem size_parts_ok (sha256 : Bytes → FixedBytes 32) (files : Files) (parts : List DiskPart)
    (images : ∀ p ∈ parts, ∃ content, files p.image = some content ∧ content ≠ []) :
    ∃ specs, sizeParts sha256 files parts = .ok specs ∧
      specs.map PartSpec.size = imageSizes files parts := by
  induction parts with
  | nil => exact ⟨[], rfl, rfl⟩
  | cons p parts ih =>
      obtain ⟨content, file, _⟩ := images p List.mem_cons_self
      obtain ⟨specs, sized, sizes⟩ := ih fun q member => images q (List.mem_cons_of_mem p member)
      refine ⟨⟨p.typeGuid, Guid.derive sha256 p.name, p.name, content.length⟩ :: specs, ?_, ?_⟩
      · simp only [sizeParts, file, sized]
        rfl
      · rw [List.map_cons, imageSizes, List.map_cons, file, Option.getD_some]
        exact congrArg _ sizes

theorem image_sizes_positive (files : Files) (parts : List DiskPart)
    (images : ∀ p ∈ parts, ∃ content, files p.image = some content ∧ content ≠ []) :
    ∀ size ∈ imageSizes files parts, 0 < size := by
  intro size member
  obtain ⟨p, inside, rfl⟩ := List.mem_map.mp member
  obtain ⟨content, file, some⟩ := images p inside
  rw [file, Option.getD_some]
  exact List.length_pos_of_ne_nil some

theorem stream_inside (files : Files) {specs : List PartSpec} {placed : List Placed}
    (fits : List.Forall₂ Fits specs placed) (parts : List DiskPart)
    (sizes : specs.map PartSpec.size = imageSizes files parts)
    (images : ∀ p ∈ parts, ∃ content, files p.image = some content ∧ content ≠ []) :
    ∃ writes placements, streamParts files (parts.zip placed) = .ok (writes, placements) ∧
      List.Forall₂ Inside writes (placed.map fun pl => (pl.offset, pl.size)) := by
  induction fits generalizing parts with
  | nil =>
      refine ⟨[], [], ?_, .nil⟩
      rw [List.zip_nil_right, streamParts]
  | cons fit _ ih =>
      rename_i pl specs placed _
      cases parts with
      | nil => contradiction
      | cons p parts =>
          obtain ⟨content, file, _⟩ := images p List.mem_cons_self
          rw [imageSizes, List.map_cons, List.map_cons, file, Option.getD_some] at sizes
          obtain ⟨size, sizes⟩ := List.cons.inj sizes
          obtain ⟨writes, placements, streamed, inside⟩ :=
            ih parts sizes fun q member => images q (List.mem_cons_of_mem p member)
          refine ⟨(pl.offset, content) :: writes, ⟨p.name, pl.offset, pl.size⟩ :: placements, ?_,
            .cons ⟨Nat.le_refl _, ?_⟩ inside⟩
          · simp only [List.zip_cons_cons, streamParts, file, streamed]
            rfl
          · exact Nat.add_le_add_left (size ▸ fit.holds) pl.offset

theorem image_sizes_update (files : Files) (out : String) (made : Option Bytes)
    (parts : List DiskPart) (apart : ∀ p ∈ parts, p.image ≠ out) :
    imageSizes (Function.update files out made) parts = imageSizes files parts := by
  apply List.map_congr_left
  intro p member
  rw [Function.update_of_ne (apart p member)]

/-- For at most 128 images that are not empty and whose disk a u64 can measure, the table
is sound whatever the names and GUIDs, and every write of `write_disk` stays in its own
region. The output is a file of its own, as `build_disk` has it: not one of the images. -/
theorem gpt_disk_sound (sha256 : Bytes → FixedBytes 32) (files : Files) (out : String)
    (parts : List DiskPart) (few : parts.length ≤ entryCount)
    (images : ∀ p ∈ parts, ∃ content, files p.image = some content ∧ content ≠ [])
    (apart : ∀ p ∈ parts, p.image ≠ out) (fit : NoOverflow (imageSizes files parts)) :
    (∀ diskGuid specs, specs.map PartSpec.size = imageSizes files parts →
      ∃ disk, build diskGuid specs = some disk ∧ Sound specs disk) ∧
    ∃ run specs, writeDisk sha256 files out parts = .ok run ∧
      specs.map PartSpec.size = imageSizes files parts ∧ Sound specs run.disk ∧
      List.Forall₂ Inside run.writes run.disk.regions ∧ run.disk.regions.Pairwise Apart := by
  have positive := image_sizes_positive files parts images
  have sound : ∀ diskGuid specs, specs.map PartSpec.size = imageSizes files parts →
      ∃ disk, build diskGuid specs = some disk ∧ Sound specs disk := by
    intro diskGuid specs sizes
    have count := congrArg List.length sizes
    rw [List.length_map, imageSizes, List.length_map] at count
    apply build_sound diskGuid specs (count ▸ few)
    · intro p member
      exact positive p.size (sizes ▸ List.mem_map_of_mem member)
    · rwa [sizes]
  refine ⟨sound, ?_⟩
  obtain ⟨specs, sized, sizes⟩ := size_parts_ok sha256 files parts images
  obtain ⟨disk, built, whole⟩ := sound (Guid.derive sha256 "horizon-key-disk") specs sizes
  obtain ⟨writes, placements, streamed, inside⟩ := stream_inside
    (Function.update files out (some (List.replicate disk.totalBytes 0))) whole.fits parts
    (sizes.trans (image_sizes_update files out _ parts apart).symm)
    (fun p member => by
      rw [Function.update_of_ne (apart p member)]
      exact images p member)
  refine ⟨⟨disk, (0, disk.front) :: (disk.backOffset, disk.back) :: writes, placements⟩, specs,
    ?_, sizes, whole, .cons ⟨Nat.le_refl _, Nat.le_refl _⟩
      (.cons ⟨Nat.le_refl _, Nat.le_refl _⟩ inside), whole.regions_apart⟩
  simp only [writeDisk, sized, built, streamed, bind, Except.bind]

/-- Two images, the second not a whole number of sectors. -/
def sampleFiles : Files := fun path =>
  if path = "esp.img" then some [1, 2, 3] else if path = "home.img" then some [4] else none

theorem gpt_disk_sound_sample :
    (∀ diskGuid specs, specs.map PartSpec.size = [3, 1] →
      ∃ disk, build diskGuid specs = some disk ∧ Sound specs disk) ∧
    ∃ run specs, writeDisk (fun _ => FixedBytes.ofBytes 32 []) sampleFiles "key.img"
        [⟨"esp.img", FixedBytes.ofBytes 16 [1], "ESP"⟩,
          ⟨"home.img", FixedBytes.ofBytes 16 [2], "HOME"⟩] = .ok run ∧
      specs.map PartSpec.size = [3, 1] ∧ Sound specs run.disk ∧
      List.Forall₂ Inside run.writes run.disk.regions ∧ run.disk.regions.Pairwise Apart :=
  gpt_disk_sound (fun _ => FixedBytes.ofBytes 32 []) sampleFiles "key.img"
    [⟨"esp.img", FixedBytes.ofBytes 16 [1], "ESP"⟩, ⟨"home.img", FixedBytes.ofBytes 16 [2], "HOME"⟩]
    (by decide) (by simp [sampleFiles]) (by simp) (by unfold NoOverflow; decide)

end HorizonOs.Keybuild.Gpt
