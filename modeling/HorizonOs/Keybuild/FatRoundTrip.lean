import HorizonOs.Keybuild.FatVolume

/-!
# The round trip of a volume

The trees that `insert_file` and `mkdir` build have names FAT can carry. Formatting such a
tree into whole MiB either says it is full, exactly when the tree needs more than there
is, or gives a volume that reads back as the tree.
-/

namespace HorizonOs.Keybuild.Fat

open HorizonOs.Lib.ByteCodec HorizonOs.Lib.Buffer

set_option autoImplicit false

/-! ## Trees that are built -/

/-- The trees a caller can make: from the empty one by inserting files and directories,
what a failed call has left behind included. -/
inductive Built : Dir → Prop where
  | empty : Built .nil
  | insertFile {dir : Dir} (path : String) (data : Bytes) :
      Built dir → Built (dir.insertFile path data).1
  | mkdir {dir : Dir} (path : String) : Built dir → Built (dir.mkdir path).1

theorem find_valid (key : String) : ∀ (dir : Dir) (node : Node), dir.Valid →
    dir.find key = some node → node.Valid
  | .nil, _, _, found => by cases found
  | .cons other name old rest, node, valid, found => by
      rw [Dir.find] at found
      split_ifs at found
      · cases found
        exact valid.2.1
      · exact find_valid key rest node valid.2.2 found

theorem insert_valid (key name : String) (node : Node) (carried : validateName name = true)
    (valid : node.Valid) : ∀ dir : Dir, dir.Valid → (dir.insert key name node).Valid
  | .nil, _ => ⟨carried, valid, trivial⟩
  | .cons other otherName otherNode rest, whole => by
      rw [Dir.insert]
      split_ifs
      · exact ⟨carried, valid, whole.2.2⟩
      · exact ⟨carried, valid, whole⟩
      · exact ⟨whole.1, whole.2.1, insert_valid key name node carried valid rest whole.2.2⟩

theorem set_node_valid (key : String) (node : Node) (valid : node.Valid) :
    ∀ dir : Dir, dir.Valid → (dir.setNode key node).Valid
  | .nil, _ => trivial
  | .cons other name old rest, whole => by
      rw [Dir.setNode]
      split_ifs
      · exact ⟨whole.1, valid, whole.2.2⟩
      · exact ⟨whole.1, whole.2.1, set_node_valid key node valid rest whole.2.2⟩

/-- Descending a path keeps every name one that FAT can carry, where the last step does. -/
theorem within_valid (act : Dir → Dir × Except Error Unit)
    (kept : ∀ dir : Dir, dir.Valid → (act dir).1.Valid) :
    ∀ (path : List String) (dir : Dir), dir.Valid → (Dir.within act path dir).1.Valid := by
  intro path
  induction path with
  | nil => exact kept
  | cons name path ih =>
      intro dir valid
      rw [Dir.within]
      by_cases carried : validateName name = true
      · rw [if_neg (not_not.mpr carried)]
        cases found : dir.find (keyOf name) with
        | none =>
            exact insert_valid _ name (.dir (Dir.within act path .nil).1) carried (ih .nil trivial)
              dir valid
        | some node =>
            cases node with
            | file data => exact valid
            | dir sub =>
                exact set_node_valid _ (.dir (Dir.within act path sub).1)
                  (ih sub (find_valid _ dir _ valid found)) dir valid
      · rw [if_pos carried]
        exact valid

theorem built_valid {dir : Dir} (built : Built dir) : dir.Valid := by
  induction built with
  | empty => trivial
  | @insertFile dir path data _ valid =>
      rw [Dir.insertFile]
      cases (components path).getLast? with
      | none => exact valid
      | some file =>
          apply within_valid _ _ _ dir valid
          intro last whole
          by_cases carried : validateName file = true
          · rw [if_neg (not_not.mpr carried)]
            exact insert_valid _ file (.file data) carried trivial last whole
          · rw [if_pos carried]
            exact whole
  | @mkdir dir path _ valid => exact within_valid _ (fun _ whole => whole) _ dir valid

/-! ## The round trip -/

/-- The geometry refuses only a volume that is too small. -/
theorem geometry_error {totalSectors : Nat} {error : Error}
    (failed : geometry totalSectors = .error error) :
    error = .espTooSmall (totalSectors * sector) := by
  have search : ∀ sizes : List Nat, fat16Search totalSectors sizes = .error error →
      error = .espTooSmall (totalSectors * sector) := by
    intro sizes
    induction sizes with
    | nil =>
        intro ended
        exact (Except.error.inj ended).symm
    | cons spc rest ih =>
        intro ended
        simp only [fat16Search] at ended
        split_ifs at ended
        exact ih ended
  rw [geometry] at failed
  split_ifs at failed
  exact search _ failed

/-- A volume of whole MiB is full exactly when the tree exceeds it; one that is made reads
back as the tree exactly when its clusters have numbers and its label begins with none but
a NUL, which ends the root directory. -/
theorem fat_round_trip (mib : Nat) (root : Dir) (params : Params) (built : Built root)
    (small : root.Small) (planned : (planChildren root).isSome) (fields : root.HasFields) :
    ((∃ needed available,
        format (mib * 2 ^ 20) root params = .error (.espFull needed available)) ↔
      ∃ geom, geometry (mib * 2048) = .ok geom ∧ countAgrees geom ∧ Exceeds geom root) ∧
    ∀ image, format (mib * 2 ^ 20) root params = .ok image →
      (Recovers image root ↔
        mib ≤ maxMib ∧ (field params.volumeLabel.bytes 0 1 ≠ 0 ∨ root = .nil)) := by
  constructor
  · constructor
    · rintro ⟨needed, available, failed⟩
      obtain ⟨sectors, whole, _⟩ := mib_sectors mib
      cases found : geometry (mib * 2048) with
      | error error =>
          rw [format, if_neg (not_not.mpr whole), sectors, found] at failed
          have small := geometry_error found
          rw [Except.error.inj failed] at small
          cases small
      | ok geom =>
          by_cases agrees : countAgrees geom = true
          · refine ⟨geom, rfl, agrees, ?_⟩
            rcases format_outcome found agrees params root planned fields with
              ⟨_, image, made, _⟩ | ⟨exceeds, _⟩
            · rw [made] at failed
              cases failed
            · exact not_not.mp exceeds
          · rw [format, if_neg (not_not.mpr whole), sectors, found] at failed
            simp [bind, Except.bind, agrees] at failed
    · rintro ⟨geom, found, agrees, exceeds⟩
      rcases format_outcome found agrees params root planned fields with
        ⟨room, _⟩ | ⟨_, full⟩
      · exact absurd exceeds room
      · exact full
  · intro image made
    obtain ⟨sectors, _, _⟩ := mib_sectors mib
    obtain ⟨_, geom, found, agrees, _⟩ := format_checked made
    rw [sectors] at found
    rcases format_outcome found agrees params root planned fields with
      ⟨_, other, again, b, stored, finished⟩ | ⟨_, needed, available, failed⟩
    · rw [made] at again
      cases again
      exact recovers_iff found agrees params root (built_valid built) small b image stored finished
    · rw [made] at failed
      cases failed

/-- A directory of one file, as `insert_file` builds it. -/
def sampleTree : Dir := (Dir.insertFile .nil "EFI/Loader config.conf" [0x68, 0x69]).1

theorem fat_round_trip_sample :
    ((∃ needed available,
        format (3 * 2 ^ 20) sampleTree sampleParams = .error (.espFull needed available)) ↔
      ∃ geom, geometry (3 * 2048) = .ok geom ∧ countAgrees geom ∧ Exceeds geom sampleTree) ∧
    ∀ image, format (3 * 2 ^ 20) sampleTree sampleParams = .ok image →
      (Recovers image sampleTree ↔
        3 ≤ maxMib ∧ (field sampleParams.volumeLabel.bytes 0 1 ≠ 0 ∨ sampleTree = .nil)) := by
  have tree : sampleTree = .cons "EFI" "EFI" (.dir (.cons "LOADER CONFIG.CONF"
      "Loader config.conf" (.file [0x68, 0x69]) .nil)) .nil := by
    rfl
  exact fat_round_trip 3 sampleTree sampleParams (.insertFile _ _ .empty)
    (by rw [tree]; exact ⟨⟨show 2 < 2 ^ 32 by decide, trivial⟩, trivial⟩)
    (by decide) (by rw [tree]; exact ⟨⟨by decide, trivial, trivial⟩, trivial⟩)

/-- At 2 TiB the sectors of a volume no longer fit their field: the empty tree is laid out
without an error, and no reader finds it. -/
theorem wide_volume_unread :
    ¬∀ (mib : Nat) (root : Dir) (params : Params) (image : Bytes), Built root → root.Small →
      (planChildren root).isSome → root.HasFields → format (mib * 2 ^ 20) root params = .ok image →
        Recovers image root := by
  intro always
  have found : geometry (2 ^ 21 * 2048) = .ok (fat32Geometry (2 ^ 21 * 2048)) := if_pos (by decide)
  have agrees : countAgrees (fat32Geometry (2 ^ 21 * 2048)) = true := by decide
  obtain ⟨sectors, whole, _⟩ := mib_sectors (2 ^ 21)
  obtain ⟨image, made⟩ := empty_tree_formats (2 ^ 21 * 2 ^ 20) sampleParams _ whole
    (by rw [sectors]; exact found) agrees
  have recovered := always (2 ^ 21) .nil sampleParams image .empty trivial rfl trivial made
  rcases format_outcome found agrees sampleParams .nil rfl trivial with
    ⟨_, other, again, b, stored, finished⟩ | ⟨_, needed, available, failed⟩
  · rw [made] at again
    cases again
    exact absurd ((recovers_iff found agrees sampleParams .nil trivial trivial b image stored
      finished).mp recovered).1 (by decide)
  · rw [made] at failed
    cases failed

end HorizonOs.Keybuild.Fat
