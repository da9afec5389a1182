import HorizonOs.Lifestream.HostFs
import HorizonOs.Lifestream.Readback

/-!
# Directory trees in and out of the store

A snapshot walks a directory of the host, in the order of its names, and puts what it
finds as objects; a restore walks a tree object and makes files, directories and links
of it. The contents of a directory are a value here, what the walk finds there.
-/

namespace HorizonOs.Lifestream

open HorizonOs.Lib.ByteCodec HorizonOs.Lib.Text HorizonOs.Lib.Runs

set_option autoImplicit false

/-- What a directory of the host may hold. -/
inductive HostNode where
  | file (perm : Perm) (data : Bytes)
  | symlink (target : Bytes)
  /-- A socket, a fifo or a device. -/
  | special
  | dir (perm : Perm) (entries : List (Name × HostNode))

/-- The contents of a directory, sorted by name as the snapshot sorts them. -/
abbrev HostTree := List (Name × HostNode)

/-! ## Modes -/

def fileMode (perm : Perm) : UInt32 := UInt32.ofNat (0o100000 + perm.val)
def dirMode (perm : Perm) : UInt32 := UInt32.ofNat (0o040000 + perm.val)
def linkMode : UInt32 := 0o120777

/-- The bits of a mode that `chmod` takes. -/
def permOf (mode : UInt32) : Perm := ⟨mode.toNat % 0o10000, Nat.mod_lt _ (by decide)⟩

theorem perm_of_file_mode (perm : Perm) : permOf (fileMode perm) = perm := by
  apply Fin.ext
  have below := perm.isLt
  simp only [permOf, fileMode, UInt32.toNat_ofNat']
  omega

theorem perm_of_dir_mode (perm : Perm) : permOf (dirMode perm) = perm := by
  apply Fin.ext
  have below := perm.isLt
  simp only [permOf, dirMode, UInt32.toNat_ofNat']
  omega

/-! ## Snapshots -/

mutual

/-- The entry of one child, when it gets one. -/
def snapshotNode (ls : Lifestream) (name : String) : HostNode → StoreM (Option TreeEntry)
  | .file perm data => do
      let id ← ls.writeBytes data
      pure (some ⟨name, .file, id, fileMode perm⟩)
  | .symlink target => do
      let id ← ls.writeBytes (utf8 (fromUtf8Lossy target))
      pure (some ⟨name, .symlink, id, linkMode⟩)
  | .special => pure none
  | .dir perm entries => do
      let children ← snapshotEntries ls entries
      let id ← ls.put (.tree children)
      pure (some ⟨name, .tree, id, dirMode perm⟩)

/-- The loop over the items of a directory. -/
def snapshotEntries (ls : Lifestream) : List (Name × HostNode) → StoreM (List TreeEntry)
  | [] => pure []
  | (fileName, node) :: rest =>
      match fromUtf8 fileName with
      | none => throw (.store "non-utf8 filename")
      | some name => do
          let entry ← snapshotNode ls name node
          let entries ← snapshotEntries ls rest
          pure (entry.toList ++ entries)

end

protected def snapshotDir (ls : Lifestream) (dir : HostTree) : StoreM ObjectId := do
  let entries ← snapshotEntries ls dir
  ls.put (.tree entries)

/-! ## Restoring -/

/-- An action on the host's files. -/
abbrev HostM := EStateM Error HostFs

def OsError.display : OsError → String
  | .notFound => "No such file or directory (os error 2)"
  | .alreadyExists => "File exists (os error 17)"
  | .notADirectory => "Not a directory (os error 20)"
  | .isADirectory => "Is a directory (os error 21)"
  | .tooManyLinks => "Too many levels of symbolic links (os error 40)"
  | .notAFile => "No such device or address (os error 6)"

def hostCall (call : HostFs → Except OsError HostFs) : HostM Unit := fun fs =>
  match call fs with
  | .ok after => .ok () after
  | .error error => .error (.io error.display) fs

def createDirAllOn (defaults : Defaults) (path : HostPath) : HostM Unit := fun fs =>
  match createDirAll defaults fs path with
  | (after, .ok ()) => .ok () after
  | (after, .error error) => .error (.io error.display) after

/-- `set_mode`: whether it succeeded is not looked at. -/
def setMode (path : HostPath) (mode : UInt32) : HostM Unit := fun fs =>
  match setPermissions fs path (permOf mode) with
  | .ok after => .ok () after
  | .error _ => .ok () fs

def fromStore {α : Type} (result : Except Error α) : HostM α := fun fs =>
  match result with
  | .ok value => .ok value fs
  | .error error => .error error fs

/-- One entry of a tree, with the restore of a subtree as an argument. -/
def restoreEntry (ls : Lifestream) (device : Device) (defaults : Defaults)
    (restore : ObjectId → HostPath → HostM Unit) (dest : HostPath) (e : TreeEntry) : HostM Unit :=
  let p := joinPath dest (utf8 e.name)
  match e.kind with
  | .tree => do
      restore e.id p
      setMode p e.mode
  | .file => do
      let data ← fromStore (ls.readBytes device e.id)
      hostCall fun fs => writeFile defaults fs p data
      setMode p e.mode
  | .symlink => do
      let target ← fromStore (ls.readBytes device e.id)
      hostCall fun fs => symlinkTo fs target p

def restoreEntries (ls : Lifestream) (device : Device) (defaults : Defaults)
    (restore : ObjectId → HostPath → HostM Unit) (dest : HostPath) : List TreeEntry → HostM Unit
  | [] => pure ()
  | e :: entries => do
      restoreEntry ls device defaults restore dest e
      restoreEntries ls device defaults restore dest entries

/-- The recursion may go as deep as the stack allows. -/
protected def restoreTree (ls : Lifestream) (device : Device) (defaults : Defaults) :
    Nat → ObjectId → HostPath → HostM Unit
  | 0, _, _ => throw (.io "stack overflow")
  | depth + 1, tree, dest => do
      createDirAllOn defaults dest
      let object ← fromStore (ls.get device tree)
      match object with
      | .tree entries =>
          restoreEntries ls device defaults (ls.restoreTree device defaults depth) dest entries
      | _ => throw (.corrupt "expected tree")

/-! ## What a snapshot puts -/

mutual

/-- The entry a snapshot makes of a child. -/
def HostNode.entry (ls : Lifestream) (name : String) : HostNode → Option TreeEntry
  | .file perm data => some ⟨name, .file, ls.store.idOf (fileOf ls data).encode, fileMode perm⟩
  | .symlink target =>
      some ⟨name, .symlink, ls.store.idOf (fileOf ls (utf8 (fromUtf8Lossy target))).encode, linkMode⟩
  | .special => none
  | .dir perm entries =>
      some ⟨name, .tree, ls.store.idOf (Object.tree (treeEntries ls entries)).encode, dirMode perm⟩

def treeEntries (ls : Lifestream) : List (Name × HostNode) → List TreeEntry
  | [] => []
  | (fileName, node) :: rest =>
      (node.entry ls ((fromUtf8 fileName).getD "")).toList ++ treeEntries ls rest

end

/-- A byte string is in the store, all its chunks with it. -/
def HoldsFile (ls : Lifestream) (device : Device) (data : Bytes) : Prop :=
  Stored ls.store device (fileOf ls data).encode ∧ HoldsChunks ls device data

mutual

/-- All that a snapshot puts for a child is in the store. -/
def HoldsNode (ls : Lifestream) (device : Device) : HostNode → Prop
  | .file _ data => HoldsFile ls device data
  | .symlink target => HoldsFile ls device (utf8 (fromUtf8Lossy target))
  | .special => True
  | .dir _ entries =>
      Stored ls.store device (Object.tree (treeEntries ls entries)).encode ∧
        HoldsTree ls device entries

def HoldsTree (ls : Lifestream) (device : Device) : List (Name × HostNode) → Prop
  | [] => True
  | (_, node) :: rest => HoldsNode ls device node ∧ HoldsTree ls device rest

end

theorem HoldsFile.grow {ls : Lifestream} {before after : Device} {data : Bytes}
    (holds : HoldsFile ls before data) (grows : Keeps ls.store before after) :
    HoldsFile ls after data :=
  ⟨grows.stored holds.1, holds.2.imp fun _ _ chunk => chunk.grow grows⟩

mutual

theorem holds_node_grow {ls : Lifestream} {before after : Device}
    (grows : Keeps ls.store before after) :
    ∀ node, HoldsNode ls before node → HoldsNode ls after node
  | .file _ _, holds => HoldsFile.grow holds grows
  | .symlink _, holds => HoldsFile.grow holds grows
  | .special, _ => trivial
  | .dir _ entries, holds => ⟨grows.stored holds.1, holds_tree_grow grows entries holds.2⟩

theorem holds_tree_grow {ls : Lifestream} {before after : Device}
    (grows : Keeps ls.store before after) :
    ∀ tree, HoldsTree ls before tree → HoldsTree ls after tree
  | [], _ => trivial
  | (_, node) :: rest, holds =>
      ⟨holds_node_grow grows node holds.1, holds_tree_grow grows rest holds.2⟩

end

theorem write_bytes_holds_file (ls : Lifestream) (data : Bytes) (device after : Device)
    (id : ObjectId) (wrote : ls.writeBytes data device = .ok id after) :
    id = ls.store.idOf (fileOf ls data).encode ∧ HoldsFile ls after data ∧
      Advances ls.store device after := by
  obtain ⟨address, stored, chunks⟩ := write_bytes_parts ls data device after id wrote
  have advances := advances_write_bytes ls data device
  rw [wrote] at advances
  exact ⟨address, ⟨stored, chunks⟩, advances⟩

mutual

theorem snapshot_node_holds (ls : Lifestream) (name : String) :
    ∀ (node : HostNode) (device after : Device) (entry : Option TreeEntry),
      snapshotNode ls name node device = .ok entry after →
        entry = node.entry ls name ∧ HoldsNode ls after node ∧ Advances ls.store device after
  | .file perm data, device, after, entry, snapped => by
      simp only [snapshotNode, bind_apply] at snapped
      cases wrote : ls.writeBytes data device with
      | error error middle => simp [wrote] at snapped
      | ok id middle =>
          rw [wrote] at snapped
          cases snapped
          obtain ⟨rfl, holds, advances⟩ := write_bytes_holds_file ls data device after id wrote
          exact ⟨rfl, holds, advances⟩
  | .symlink target, device, after, entry, snapped => by
      simp only [snapshotNode, bind_apply] at snapped
      cases wrote : ls.writeBytes (utf8 (fromUtf8Lossy target)) device with
      | error error middle => simp [wrote] at snapped
      | ok id middle =>
          rw [wrote] at snapped
          cases snapped
          obtain ⟨rfl, holds, advances⟩ := write_bytes_holds_file ls _ device after id wrote
          exact ⟨rfl, holds, advances⟩
  | .special, device, after, entry, snapped => by
      cases snapped
      exact ⟨rfl, trivial, Advances.refl ls.store device⟩
  | .dir perm entries, device, after, entry, snapped => by
      simp only [snapshotNode, bind_apply] at snapped
      cases inside : snapshotEntries ls entries device with
      | error error middle => simp [inside] at snapped
      | ok children middle =>
          obtain ⟨rfl, holds, first⟩ := snapshot_entries_holds ls entries device middle children inside
          rw [inside] at snapped
          cases put : ls.put (.tree (treeEntries ls entries)) middle with
          | error error later => simp [put] at snapped
          | ok id later =>
              simp only [put] at snapped
              cases snapped
              obtain ⟨rfl, stored⟩ :=
                put_stored ls.store (Object.tree (treeEntries ls entries)).encode middle after id put
              have second := put_advances ls _ put
              exact ⟨rfl, ⟨stored, holds_tree_grow second.toKeeps entries holds⟩,
                Advances.trans ls.store _ _ _ first second⟩

theorem snapshot_entries_holds (ls : Lifestream) :
    ∀ (tree : List (Name × HostNode)) (device after : Device) (entries : List TreeEntry),
      snapshotEntries ls tree device = .ok entries after →
        entries = treeEntries ls tree ∧ HoldsTree ls after tree ∧ Advances ls.store device after
  | [], device, after, entries, snapped => by
      cases snapped
      exact ⟨rfl, trivial, Advances.refl ls.store device⟩
  | (fileName, node) :: rest, device, after, entries, snapped => by
      rw [snapshotEntries] at snapped
      cases decoded : fromUtf8 fileName with
      | none =>
          rw [decoded] at snapped
          cases snapped
      | some name =>
          rw [decoded] at snapped
          simp only [bind_apply] at snapped
          cases one : snapshotNode ls name node device with
          | error error middle => simp [one] at snapped
          | ok entry middle =>
              obtain ⟨rfl, holds, first⟩ :=
                snapshot_node_holds ls name node device middle entry one
              simp only [one] at snapped
              cases more : snapshotEntries ls rest middle with
              | error error later => simp [more] at snapped
              | ok others later =>
                  obtain ⟨rfl, held, second⟩ :=
                    snapshot_entries_holds ls rest middle later others more
                  simp only [more] at snapped
                  cases snapped
                  refine ⟨?_, ⟨holds_node_grow second.toKeeps node holds, held⟩,
                    Advances.trans ls.store _ _ _ first second⟩
                  rw [treeEntries, decoded, Option.getD_some]

end

end HorizonOs.Lifestream
