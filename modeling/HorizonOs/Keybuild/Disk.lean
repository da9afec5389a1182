import HorizonOs.Init.Cmdline
import HorizonOs.Init.Gpt

/-!
# A Key and its boot

The command line a Key is built with and the disk its images are laid on: labels go
through both, and init finds the partitions again by what the two say.
-/

namespace HorizonOs.Keybuild.Disk

open HorizonOs.Lib.ByteCodec HorizonOs.Lib.Buffer HorizonOs.Lib.Text HorizonOs.Lib.Words
open HorizonOs.Keybuild.Gpt HorizonOs.Init

set_option autoImplicit false

/-- What of a Key's parameters reaches its command line and its disk. -/
structure KeySpec where
  out : String
  baseLabel : String
  dataLabel : String
  basefs : String
  datafs : String
  mode : ModeChoice
  verityRoot : Option String
  cmdlineExtra : List String

def baseImage : String := "base.squashfs"
def dataImage : String := "data.img"
def verityImage : String := "base.verity"
def homeImage : String := "home.img"
def espImage : String := "esp.img"
def diskImage : String := "key.img"
def espLabel : String := "HORIZON-ESP"
def espKernel : String := "VMLINUZ"
def espInitrd : String := "INITRD.IMG"

/-! ## The loader's entry -/

def modeName : ModeChoice → String
  | .auto => "auto"
  | .home => "home"
  | .ghost => "ghost"

def bootCmdline (spec : KeySpec) : String :=
  "horizon.base=LABEL=" ++ spec.baseLabel ++ " horizon.basefs=" ++ spec.basefs ++
    " horizon.data=LABEL=" ++ spec.dataLabel ++ " horizon.datafs=" ++ spec.datafs ++
    " horizon.mode=" ++ modeName spec.mode

/-- The kernel's options: the command line, the root hash, and the extra tokens. -/
def options (spec : KeySpec) : String :=
  let line := bootCmdline spec
  let line :=
    match spec.verityRoot with
    | some root => line ++ " horizon.verity=" ++ root
    | none => line
  spec.cmdlineExtra.foldl (fun line tok => line ++ " " ++ tok) line

def loaderEntry (spec : KeySpec) : String :=
  "title   Horizon OS\nlinux   /" ++ espKernel ++ "\ninitrd  /" ++ espInitrd ++ "\noptions " ++
    options spec ++ "\n"

/-- What a loader takes from an entry: the rest of its line that begins with `options`. -/
def optionsLine (entry : List Char) : Option (List Char) :=
  (entry.splitOn newline).findSome? (stripPrefix "options ".toList)

/-! ## The disk -/

/-- `u64::from_str_radix` in base 16, which takes a sign. -/
def parseHex (text : List Char) : Option Nat :=
  let digits := if text.head? = some '+' then text.tail else text
  if digits = [] then none
  else digits.foldlM (fun value c => (hexValue c).map (16 * value + ·)) 0

/-- The canonical text of a GUID: three groups little-endian, two as written. -/
def parseGuid (text : String) : Option Guid :=
  match text.toList.splitOn '-' with
  | [g1, g2, g3, g4, g5] =>
      if [g1, g2, g3, g4, g5].map (fun g => (utf8 (String.ofList g)).length) = [8, 4, 4, 4, 12]
      then do
        let f1 ← parseHex g1
        let f2 ← parseHex g2
        let f3 ← parseHex g3
        let f4 ← parseHex g4
        let f5 ← parseHex g5
        some (FixedBytes.ofBytes 16 (encodeLE 4 f1 ++ encodeLE 2 f2 ++ encodeLE 2 f3 ++
          encodeBE 2 f4 ++ encodeBE 6 f5))
      else none
  | _ => none

def espType : String := "C12A7328-F81F-11D2-BA4B-00A0C93EC93B"
def linuxFsType : String := "0FC63DAF-8483-4772-8E79-3D69D8477DE4"

/-- `Path::join` with a plain file name. -/
def join (dir name : String) : String :=
  if dir = "" ∨ dir.toList.getLast? = some '/' then dir ++ name else dir ++ "/" ++ name

/-- The partitions of a Key in order; the hash device only where it has been built. -/
def diskParts (files : Files) (spec : KeySpec) : Option (List DiskPart) := do
  let linux ← parseGuid linuxFsType
  let esp ← parseGuid espType
  let verity := join spec.out verityImage
  some ([⟨join spec.out espImage, esp, espLabel⟩,
      ⟨join spec.out baseImage, linux, spec.baseLabel⟩] ++
    (if (files verity).isSome then [⟨verity, linux, verityLabel⟩] else []) ++
    [⟨join spec.out dataImage, linux, spec.dataLabel⟩,
      ⟨join spec.out homeImage, linux, homeLabel⟩])

def buildDisk (sha256 : Bytes → FixedBytes 32) (files : Files) (spec : KeySpec) :
    Except DiskError DiskRun :=
  match diskParts files spec with
  | none => .error .panicked
  | some parts => writeDisk sha256 files (join spec.out diskImage) parts

/-- The disk file after a run: zeros, and each write at its offset. -/
def imageOf (run : DiskRun) : Bytes :=
  run.writes.foldl (fun image write => put image write.1 write.2)
    (List.replicate run.disk.totalBytes 0)

/-- The number of the partition an image was laid into. -/
def holding (parts : List DiskPart) (image : String) : Option Nat :=
  (parts.zipIdx.find? (·.1.image = image)).map (·.2 + 1)

/-! ## The table on the disk -/

theorem place_after (cursor : Nat) (specs : List PartSpec) :
    cursor ≤ (place cursor specs).2 ∧
      ∀ pl ∈ (place cursor specs).1, cursor * sector ≤ pl.offset := by
  induction specs generalizing cursor with
  | nil => exact ⟨Nat.le_refl cursor, fun pl member => absurd member List.not_mem_nil⟩
  | cons p specs ih =>
      obtain ⟨ends, later⟩ := ih (cursor + regionSectors p.size - 1 + 1)
      have step : cursor ≤ cursor + regionSectors p.size - 1 + 1 := by omega
      refine ⟨step.trans ends, fun pl member => ?_⟩
      rcases List.mem_cons.mp member with rfl | rest
      · exact Nat.le_refl _
      · exact (Nat.mul_le_mul_right sector step).trans (later pl rest)

theorem stream_offsets (files : Files) : ∀ (pairs : List (DiskPart × Placed))
    (writes : List (Nat × Bytes)) (placements : List Placement),
    streamParts files pairs = .ok (writes, placements) →
      ∀ write ∈ writes, ∃ pair ∈ pairs, write.1 = pair.2.offset
  | [], writes, placements, streamed, write, member => by
      cases streamed
      cases member
  | (p, placed) :: rest, writes, placements, streamed, write, member => by
      rw [streamParts] at streamed
      cases file : files p.image with
      | none =>
          simp only [file] at streamed
          cases streamed
      | some content =>
          simp only [file] at streamed
          cases later : streamParts files rest with
          | error error =>
              rw [later] at streamed
              cases streamed
          | ok pair =>
              rw [later] at streamed
              cases streamed
              rcases List.mem_cons.mp member with rfl | inside
              · exact ⟨_, List.mem_cons_self, rfl⟩
              · obtain ⟨found, within, same⟩ :=
                  stream_offsets files rest pair.1 pair.2 later write inside
                exact ⟨found, List.mem_cons_of_mem _ within, same⟩

/-- Writes behind a region leave it alone. -/
theorem writes_behind (limit : Nat) : ∀ (writes : List (Nat × Bytes)) (image : Bytes),
    (∀ write ∈ writes, limit ≤ write.1) → ∀ offset count, offset + count ≤ limit →
      slice (writes.foldl (fun image write => put image write.1 write.2) image) offset count =
        slice image offset count
  | [], _, _, _, _, _ => rfl
  | write :: writes, image, behind, offset, count, within => by
      have first := behind write List.mem_cons_self
      rw [List.foldl_cons, writes_behind limit writes _
        (fun later member => behind later (List.mem_cons_of_mem _ member)) offset count within]
      exact slice_put_apart _ _ _ _ _ (.inl (by omega))

theorem writes_length : ∀ (writes : List (Nat × Bytes)) (image : Bytes),
    (writes.foldl (fun image write => put image write.1 write.2) image).length = image.length
  | [], _ => rfl
  | _ :: writes, _ => (writes_length writes _).trans (length_put _ _ _)

/-- The names and types of the sized partitions are those of the parts. -/
theorem size_parts_fields (sha256 : Bytes → FixedBytes 32) (files : Files) :
    ∀ (parts : List DiskPart) (specs : List PartSpec), sizeParts sha256 files parts = .ok specs →
      List.Forall₂ (fun p spec => spec.name = p.name ∧ spec.typeGuid = p.typeGuid) parts specs
  | [], specs, sized => by
      cases sized
      exact .nil
  | p :: parts, specs, sized => by
      rw [sizeParts] at sized
      cases file : files p.image with
      | none =>
          simp only [file] at sized
          cases sized
      | some content =>
          simp only [file] at sized
          cases later : sizeParts sha256 files parts with
          | error error =>
              rw [later] at sized
              cases sized
          | ok rest =>
              rw [later] at sized
              cases sized
              exact .cons ⟨rfl, rfl⟩ (size_parts_fields sha256 files parts rest later)

/-- The steps of a disk that was written. -/
theorem write_disk_steps {sha256 : Bytes → FixedBytes 32} {files : Files} {out : String}
    {parts : List DiskPart} {run : DiskRun} (written : writeDisk sha256 files out parts = .ok run) :
    ∃ specs, sizeParts sha256 files parts = .ok specs ∧
      build (Guid.derive sha256 "horizon-key-disk") specs = some run.disk ∧
      ∃ later writes placements, streamParts later (parts.zip run.disk.parts) =
          .ok (writes, placements) ∧
        run.writes = (0, run.disk.front) :: (run.disk.backOffset, run.disk.back) :: writes := by
  rw [writeDisk] at written
  cases sized : sizeParts sha256 files parts with
  | error error =>
      rw [sized] at written
      cases written
  | ok specs =>
      simp only [sized, bind, Except.bind] at written
      cases built : build (Guid.derive sha256 "horizon-key-disk") specs with
      | none =>
          simp only [built] at written
          cases written
      | some disk =>
          simp only [built] at written
          split at written
          · cases written
          · rename_i pair streamed
            cases written
            exact ⟨specs, rfl, built, _, pair.1, pair.2, streamed, rfl⟩

theorem stream_ok (files : Files) (all : ∀ path, ∃ content, files path = some content) :
    ∀ pairs : List (DiskPart × Placed), ∃ streamed, streamParts files pairs = .ok streamed
  | [] => ⟨_, rfl⟩
  | (p, placed) :: rest => by
      obtain ⟨content, file⟩ := all p.image
      obtain ⟨later, streamed⟩ := stream_ok files all rest
      exists ((placed.offset, content) :: later.1, ⟨p.name, placed.offset, placed.size⟩ :: later.2)
      simp only [streamParts, file, streamed, bind, Except.bind]

/-- With every file there, any few parts are written. -/
theorem write_disk_ok (sha256 : Bytes → FixedBytes 32) (files : Files)
    (all : ∀ path, ∃ content, files path = some content ∧ content ≠ []) (out : String)
    (parts : List DiskPart) (few : parts.length ≤ entryCount) :
    ∃ run, writeDisk sha256 files out parts = .ok run := by
  obtain ⟨specs, sized, sizes⟩ := size_parts_ok sha256 files parts fun p _ => all p.image
  have count := congrArg List.length sizes
  rw [List.length_map, imageSizes, List.length_map] at count
  have table := build_eq (Guid.derive sha256 "horizon-key-disk") specs (count ▸ few)
  generalize frame _ _ _ (entryArray specs) = disk at table
  have there : ∀ path, ∃ content, Function.update files out
      (some (List.replicate disk.totalBytes 0)) path = some content := by
    intro path
    rw [Function.update_apply]
    split_ifs
    · exact ⟨_, rfl⟩
    · obtain ⟨content, file, _⟩ := all path
      exact ⟨content, file⟩
  obtain ⟨streamed, stream⟩ := stream_ok _ there (parts.zip disk.parts)
  exists ⟨disk, (0, disk.front) :: (disk.backOffset, disk.back) :: streamed.1, streamed.2⟩
  simp only [writeDisk, sized, table, stream, bind, Except.bind]

/-- The front of the disk is what the table's builder made: the images come behind it. -/
theorem front_kept {sha256 : Bytes → FixedBytes 32} {files : Files} {out : String}
    {parts : List DiskPart} {run : DiskRun} {specs : List PartSpec}
    (written : writeDisk sha256 files out parts = .ok run) (few : specs.length ≤ entryCount)
    (sized : sizeParts sha256 files parts = .ok specs) :
    ∃ diskGuid, run.disk = frame diskGuid (place alignSectors specs).1
        (place alignSectors specs).2 (entryArray specs) ∧
      (imageOf run).length = run.disk.totalBytes ∧
      ∀ offset count, offset + count ≤ firstUsable * sector →
        slice (imageOf run) offset count = slice run.disk.front offset count := by
  obtain ⟨again, resized, built, later, writes, placements, streamed, whole⟩ :=
    write_disk_steps written
  rw [sized] at resized
  cases resized
  have framed := frame_framed (Guid.derive sha256 "horizon-key-disk") (place alignSectors specs).1
    (place alignSectors specs).2 (entryArray specs) (length_entry_array specs)
  rw [build_eq _ specs few] at built
  have made := (Option.some.inj built).symm
  rw [← made] at framed
  obtain ⟨ends, placed⟩ := place_after alignSectors specs
  have start : firstUsable * sector ≤ alignSectors * sector := by decide
  refine ⟨_, made, ?_, fun offset count within => ?_⟩
  · rw [imageOf, writes_length, List.length_replicate]
  · rw [imageOf, whole, List.foldl_cons, writes_behind (firstUsable * sector)]
    · have inside := slice_put_within (List.replicate run.disk.totalBytes 0) 0 run.disk.front offset
        count (by rw [framed.front]; exact within) (by
          rw [framed.front, List.length_replicate, framed.totalBytes, Nat.zero_add]
          exact Nat.mul_le_mul_right sector (by
            have first : firstUsable ≤ alignSectors := by decide
            omega))
      rwa [Nat.zero_add] at inside
    · intro write member
      rcases List.mem_cons.mp member with rfl | image
      · change _ ≤ run.disk.backOffset
        rw [framed.backOffset]
        exact start.trans (Nat.mul_le_mul_right sector ends)
      · obtain ⟨pair, paired, offset⟩ := stream_offsets _ _ _ _ streamed write image
        rw [offset]
        apply start.trans
        apply placed
        rw [← framed.parts]
        exact (List.of_mem_zip paired).2
    · exact within

/-- The table of a disk that was written lists every partition by its number and the name that
its field shows. -/
theorem read_written {sha256 : Bytes → FixedBytes 32} {files : Files} {out : String}
    {parts : List DiskPart} {run : DiskRun} (written : writeDisk sha256 files out parts = .ok run)
    (few : parts.length ≤ entryCount) (typed : ∀ p ∈ parts, ∃ b ∈ p.typeGuid.bytes, b ≠ 0) :
    readDiskGpt (imageOf run) sector =
      some (parts.zipIdx.map fun p => ⟨p.2 + 1, shownLabel p.1.name⟩) := by
  obtain ⟨specs, sized, _⟩ := write_disk_steps written
  have fields := size_parts_fields sha256 files parts specs sized
  have few : specs.length ≤ entryCount := fields.length_eq ▸ few
  have typed : ∀ spec ∈ specs, ∃ b ∈ spec.typeGuid.bytes, b ≠ 0 := by
    intro spec member
    obtain ⟨i, inside, rfl⟩ := List.getElem_of_mem member
    have same := (List.forall₂_iff_get.mp fields).2 i (by rw [fields.length_eq]; exact inside) inside
    have type := same.2
    simp only [List.get_eq_getElem] at type
    rw [type]
    exact typed _ (List.getElem_mem _)
  obtain ⟨diskGuid, made, length, kept⟩ := front_kept written few sized
  have framed := frame_framed diskGuid (place alignSectors specs).1 (place alignSectors specs).2
    (entryArray specs) (length_entry_array specs)
  rw [← made] at framed
  have ends := (place_after alignSectors specs).1
  have large : 1024 + 16384 ≤ (imageOf run).length := by
    have unit : sector = 512 := rfl
    have first : alignSectors = 2048 := rfl
    rw [length, framed.totalBytes, unit]
    omega
  have unit : sector = 512 := rfl
  have primary := (kept sector 512 (by decide)).trans framed.primary
  have entries := (kept (2 * sector) (entryCount * entrySize) (by decide)).trans
    framed.primaryEntries
  have second : decodeLE (slice (header ⟨1, (place alignSectors specs).2 + entryArraySectors,
      firstUsable, (place alignSectors specs).2 - 1, diskGuid, entriesLba,
      crc32 (entryArray specs)⟩) 72 8) = 2 := by
    obtain ⟨_, _, _, _, _, _, _, array, _⟩ := header_fields_read ⟨1,
      (place alignSectors specs).2 + entryArraySectors, firstUsable,
      (place alignSectors specs).2 - 1, diskGuid, entriesLba, crc32 (entryArray specs)⟩
    rw [header_read _ 72 8 (by omega), array]
    exact decode_encode_le_of_lt 8 2 (by decide)
  generalize (⟨1, (place alignSectors specs).2 + entryArraySectors, firstUsable,
    (place alignSectors specs).2 - 1, diskGuid, entriesLba, crc32 (entryArray specs)⟩ :
      HeaderArgs) = a at primary second
  obtain ⟨count, width⟩ := header_sizes a
  have signature := header_signature a
  rw [readDiskGpt, if_neg (by rw [unit]; omega)]
  simp only [primary, signature, second, count, width, ne_eq, not_true_eq_false, if_false]
  rw [if_neg (by decide), if_neg (by rw [unit]; omega)]
  have area : 128 * 128 = entryCount * entrySize := rfl
  rw [area, entries, parse_gpt_header, parse_entry_array specs few typed]
  have names : specs.map PartSpec.name = parts.map DiskPart.name := by
    clear * - fields
    induction fields with
    | nil => rfl
    | cons same _ ih => rw [List.map_cons, List.map_cons, same.1, ih]
  have bySpec : (specs.zipIdx.map fun p => (⟨p.2 + 1, shownLabel p.1.name⟩ : GptPart)) =
      (specs.map PartSpec.name).zipIdx.map fun p => ⟨p.2 + 1, shownLabel p.1⟩ := by
    rw [List.zipIdx_map, List.map_map]
    rfl
  rw [bySpec, names, List.zipIdx_map, List.map_map]
  rfl

end HorizonOs.Keybuild.Disk
