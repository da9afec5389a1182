import HorizonOs.Lifestream.GcExact
import HorizonOs.Lifestream.TreeRoundTrip

/-!
# Trees from their address

A disk may hold the objects of a tree without having taken its snapshot: they came from
another one. Where the root of a snapshot is complete, and what the snapshot offered
collides with nothing that this disk was offered, a restore brings the tree back.
-/

namespace HorizonOs.Lifestream

open HorizonOs.Lib.ByteCodec HorizonOs.Lib.Text HorizonOs.Lib.Runs HorizonOs.Lib.Programs
  HorizonOs.Lib.Search

set_option autoImplicit false

/-! ## What a snapshot offers -/

def OffersFile (ls : Lifestream) (library : Bytes → Prop) (data : Bytes) : Prop :=
  library (fileOf ls data).encode ∧
    ∀ range ∈ split data, library (Object.chunk (slice data range)).encode

mutual

/-- All that a snapshot puts for a child is in the library. -/
def OffersNode (ls : Lifestream) (library : Bytes → Prop) : HostNode → Prop
  | .file _ data => OffersFile ls library data
  | .symlink target => OffersFile ls library (utf8 (fromUtf8Lossy target))
  | .special => True
  | .dir _ entries =>
      library (Object.tree (treeEntries ls entries)).encode ∧ OffersTree ls library entries

def OffersTree (ls : Lifestream) (library : Bytes → Prop) : List (Name × HostNode) → Prop
  | [] => True
  | (_, node) :: rest => OffersNode ls library node ∧ OffersTree ls library rest

end

theorem OffersFile.imp {ls : Lifestream} {library larger : Bytes → Prop} {data : Bytes}
    (offers : OffersFile ls library data) (more : ∀ plaintext, library plaintext → larger plaintext) :
    OffersFile ls larger data :=
  ⟨more _ offers.1, fun range member => more _ (offers.2 range member)⟩

mutual

theorem offers_node_imp {ls : Lifestream} {library larger : Bytes → Prop}
    (more : ∀ plaintext, library plaintext → larger plaintext) :
    ∀ node, OffersNode ls library node → OffersNode ls larger node
  | .file _ _, offers => OffersFile.imp offers more
  | .symlink _, offers => OffersFile.imp offers more
  | .special, _ => trivial
  | .dir _ entries, offers => ⟨more _ offers.1, offers_tree_imp more entries offers.2⟩

theorem offers_tree_imp {ls : Lifestream} {library larger : Bytes → Prop}
    (more : ∀ plaintext, library plaintext → larger plaintext) :
    ∀ tree, OffersTree ls library tree → OffersTree ls larger tree
  | [], _ => trivial
  | (_, node) :: rest, offers =>
      ⟨offers_node_imp more node offers.1, offers_tree_imp more rest offers.2⟩

end

theorem HoldsFile.offers {ls : Lifestream} {device : Device} {data : Bytes}
    (holds : HoldsFile ls device data) : OffersFile ls (· ∈ device.written) data := by
  apply And.intro holds.1.offered
  have chunks := holds.2
  rw [HoldsChunks, chunkIds, List.forall₂_map_left_iff, List.forall₂_map_right_iff,
    List.forall₂_same] at chunks
  exact fun range member => (chunks range member).stored.offered

mutual

theorem offers_of_holds_node {ls : Lifestream} {device : Device} :
    ∀ node, HoldsNode ls device node → OffersNode ls (· ∈ device.written) node
  | .file _ _, holds => HoldsFile.offers holds
  | .symlink _, holds => HoldsFile.offers holds
  | .special, _ => trivial
  | .dir _ entries, holds => ⟨holds.1.offered, offers_of_holds_tree entries holds.2⟩

theorem offers_of_holds_tree {ls : Lifestream} {device : Device} :
    ∀ tree, HoldsTree ls device tree → OffersTree ls (· ∈ device.written) tree
  | [], _ => trivial
  | (_, node) :: rest, holds =>
      ⟨offers_of_holds_node node holds.1, offers_of_holds_tree rest holds.2⟩

end

/-! ## What lies under a complete address -/

theorem file_fits (ls : Lifestream) (data : Bytes) (few : (split data).length < 2 ^ 32) :
    (fileOf ls data).Fits := by
  change (chunkIds ls data).length < 2 ^ 32
  rwa [chunkIds, List.length_map]

theorem tree_fits (ls : Lifestream) (tree : HostTree) (proper : tree.Proper)
    (few : tree.regular.length < 2 ^ 32) : (Object.tree (treeEntries ls tree)).Fits := by
  constructor
  · rwa [tree_entries_length, regular_length]
  · exact tree_entries_short ls tree proper

theorem target_fits (target : Bytes) (short : target.length < 2 ^ 40) :
    (split (utf8 (fromUtf8Lossy target))).length < 2 ^ 32 := by
  have size := lossy_length target
  exact split_count_fits _ (by omega)

section Complete

variable {ls : Lifestream} {device : Device} {library : Bytes → Prop}
  (sound : Sound ls.store device)
  (apart : ∀ left, library left → ∀ right ∈ device.written,
    ls.store.idOf left = ls.store.idOf right → left = right)

include sound apart

theorem stored_of_present {plaintext : Bytes} (offered : library plaintext)
    (present : device.has (ls.store.idOf plaintext) = true) :
    Stored ls.store device plaintext := by
  obtain ⟨other, member, address, _⟩ := sound_contents sound present
  cases apart plaintext offered other member address.symm
  exact ⟨member, present⟩

theorem contents_of_library {object : Object} (fits : object.Fits)
    (offered : library object.encode)
    (present : device.has (ls.store.idOf object.encode) = true) :
    ls.contents device (ls.store.idOf object.encode) = some object := by
  obtain ⟨other, member, address, held⟩ := sound_contents sound present
  cases apart object.encode offered other member address.symm
  rw [held, decode_encode_object object fits]
  rfl

/-- What an object links to is complete where the object is. -/
theorem links_complete {object : Object} (fits : object.Fits) (offered : library object.encode)
    (complete : Complete ls device (ls.store.idOf object.encode)) {next : ObjectId}
    (member : next ∈ object.links) : Complete ls device next := by
  intro reached path
  have here := complete _ (Reaches.refl _ _)
  have held := contents_of_library sound apart fits offered here
  have leads : next ∈ ls.edges device (ls.store.idOf object.encode) := by
    rw [edges, held]
    exact member
  exact complete reached (((Reaches.refl _ _).edge leads).trans path)

theorem stored_of_complete {plaintext : Bytes} (offered : library plaintext)
    (complete : Complete ls device (ls.store.idOf plaintext)) :
    Stored ls.store device plaintext :=
  stored_of_present sound apart offered (complete _ (Reaches.refl _ _))

theorem holds_file_of_complete (data : Bytes) (few : (split data).length < 2 ^ 32)
    (offers : OffersFile ls library data)
    (complete : Complete ls device (ls.store.idOf (fileOf ls data).encode)) :
    HoldsFile ls device data := by
  apply And.intro (stored_of_complete sound apart offers.1 complete)
  rw [HoldsChunks, chunkIds, List.forall₂_map_left_iff, List.forall₂_map_right_iff,
    List.forall₂_same]
  intro range member
  have linked : ls.store.idOf (Object.chunk (slice data range)).encode ∈ (fileOf ls data).links :=
    List.mem_map_of_mem member
  have below := links_complete sound apart (file_fits ls data few) offers.1 complete linked
  exact ⟨trivial, rfl, stored_of_complete sound apart (offers.2 range member) below⟩

mutual

theorem holds_node_of_complete : ∀ (node : HostNode) (name : String), node.Proper →
    node.Faithful → OffersNode ls library node →
      (∀ entry, node.entry ls name = some entry → Complete ls device entry.id) →
        HoldsNode ls device node
  | .file _ data, _, _, few, offers, complete =>
      holds_file_of_complete sound apart data few offers (complete _ rfl)
  | .symlink target, _, proper, _, offers, complete =>
      holds_file_of_complete sound apart _ (target_fits target proper.2) offers (complete _ rfl)
  | .special, _, _, _, _, _ => trivial
  | .dir _ entries, _, proper, faithful, offers, complete => by
      have root := complete _ rfl
      apply And.intro (stored_of_complete sound apart offers.1 root)
      apply holds_tree_of_complete entries proper faithful.2 offers.2
      intro entry member
      exact links_complete sound apart (tree_fits ls entries proper faithful.1) offers.1 root
        (List.mem_map_of_mem member)

theorem holds_tree_of_complete : ∀ tree : List (Name × HostNode), ProperEntries tree →
    FaithfulEntries tree → OffersTree ls library tree →
      (∀ entry ∈ treeEntries ls tree, Complete ls device entry.id) → HoldsTree ls device tree
  | [], _, _, _, _ => trivial
  | (fileName, node) :: rest, proper, faithful, offers, complete => by
      constructor
      · apply holds_node_of_complete node ((fromUtf8 fileName).getD "") proper.2.1 faithful.1 offers.1
        intro entry made
        apply complete
        rw [treeEntries, made]
        exact List.mem_cons_self
      · apply holds_tree_of_complete rest proper.2.2.2 faithful.2 offers.2
        intro entry member
        apply complete
        rw [treeEntries]
        exact List.mem_append_right _ member

end

/-- A complete root restores as the tree it is the root of. -/
theorem restore_of_complete (defaults : Defaults) (tree : HostTree) (proper : tree.Proper)
    (faithful : tree.Faithful) (offeredRoot : library (Object.tree (treeEntries ls tree)).encode)
    (offers : OffersTree ls library tree)
    (complete : Complete ls device (ls.store.idOf (Object.tree (treeEntries ls tree)).encode))
    (free : CollisionFree ls.store device) (readable : device.Readable) (depth : Nat)
    (deep : treeDepth tree < depth) (fs : HostFs) (dest : HostPath) (dirs : Directories fs dest)
    (empty : ∀ name rest, fs (dest ++ name :: rest) = none) :
    ∃ after, ls.restoreTree device defaults depth
        (ls.store.idOf (Object.tree (treeEntries ls tree)).encode) dest fs = .ok () after ∧
      Lays fs after dest tree.regular := by
  have fits := tree_fits ls tree proper faithful.1
  have holds : HoldsTree ls device tree := by
    apply holds_tree_of_complete sound apart tree proper faithful.2 offers
    exact fun entry member => links_complete sound apart fits offeredRoot complete
      (List.mem_map_of_mem member)
  have stored := stored_of_complete sound apart offeredRoot complete
  obtain ⟨after, restored, laid⟩ := restore_lays ls device defaults sound free readable tree proper
    depth deep holds stored fs dest dirs empty
  rw [kept_whole tree faithful.1, kept_entries_of_faithful tree proper faithful.2] at laid
  exact ⟨after, restored, laid⟩

end Complete

/-! ## What is whole -/

section Whole

variable {ls : Lifestream} {device : Device}

theorem Whole.of_links {id : ObjectId} {object : Object}
    (held : ls.contents device id = some object)
    (links : ∀ next ∈ object.links, Whole ls device next) : Whole ls device id := by
  intro reached path
  rcases Relation.ReflTransGen.cases_head path with rfl | ⟨next, leads, rest⟩
  · exact ⟨object, held⟩
  · rw [edges, held] at leads
    exact links next leads reached rest

theorem Whole.kept {after : Device} {id : ObjectId} (whole : Whole ls device id)
    (kept : ∀ id record, device.objects.lookup id = some record →
      after.objects.lookup id = some record) : Whole ls after id := by
  have handed : ∀ node, Reaches (ls.edges device) id node → ∀ next ∈ ls.edges after node,
      Reaches (ls.edges device) id next := by
    intro node before next leads
    obtain ⟨object, held⟩ := whole node before
    apply before.edge
    rw [edges, contents_kept held kept] at leads
    rw [edges, held]
    exact leads
  intro reached path
  obtain ⟨object, held⟩ := whole reached (path.carries handed (Reaches.refl _ _))
  exact ⟨object, contents_kept held kept⟩

variable (sound : Sound ls.store device) (free : CollisionFree ls.store device)

include sound free

theorem whole_file (data : Bytes) (few : (split data).length < 2 ^ 32)
    (holds : HoldsFile ls device data) :
    Whole ls device (ls.store.idOf (fileOf ls data).encode) := by
  apply Whole.of_links (contents_of_holds sound free ⟨file_fits ls data few, rfl, holds.1⟩)
  have chunks := holds.2
  rw [HoldsChunks, chunkIds, List.forall₂_map_left_iff, List.forall₂_map_right_iff,
    List.forall₂_same] at chunks
  intro next member
  obtain ⟨range, among, rfl⟩ := List.mem_map.mp member
  apply Whole.of_links (contents_of_holds sound free (chunks range among))
  exact fun next none => absurd none List.not_mem_nil

mutual

theorem whole_node : ∀ (node : HostNode) (name : String), node.Proper → node.Faithful →
    HoldsNode ls device node → ∀ entry, node.entry ls name = some entry →
      Whole ls device entry.id
  | .file _ data, _, _, few, holds, _, made => by
      cases made
      exact whole_file sound free data few holds
  | .symlink target, _, proper, _, holds, _, made => by
      cases made
      exact whole_file sound free _ (target_fits target proper.2) holds
  | .special, _, _, _, _, _, made => by cases made
  | .dir _ entries, _, proper, faithful, holds, _, made => by
      cases made
      apply Whole.of_links
        (contents_of_holds sound free ⟨tree_fits ls entries proper faithful.1, rfl, holds.1⟩)
      intro next member
      obtain ⟨entry, among, rfl⟩ := List.mem_map.mp member
      exact whole_entries entries proper faithful.2 holds.2 entry among

theorem whole_entries : ∀ tree : List (Name × HostNode), ProperEntries tree →
    FaithfulEntries tree → HoldsTree ls device tree → ∀ entry ∈ treeEntries ls tree,
      Whole ls device entry.id
  | [], _, _, _, _, member => absurd member List.not_mem_nil
  | (_, node) :: rest, proper, faithful, holds, entry, member => by
      rw [treeEntries, List.mem_append, Option.mem_toList] at member
      rcases member with made | later
      · exact whole_node node _ proper.2.1 faithful.1 holds.1 entry made
      · exact whole_entries rest proper.2.2.2 faithful.2 holds.2 entry later

end

/-- What a snapshot has put is whole. -/
theorem whole_tree (tree : HostTree) (proper : tree.Proper) (faithful : tree.Faithful)
    (stored : Stored ls.store device (Object.tree (treeEntries ls tree)).encode)
    (holds : HoldsTree ls device tree) :
    Whole ls device (ls.store.idOf (Object.tree (treeEntries ls tree)).encode) := by
  apply Whole.of_links
    (contents_of_holds sound free ⟨tree_fits ls tree proper faithful.1, rfl, stored⟩)
  intro next member
  obtain ⟨entry, among, rfl⟩ := List.mem_map.mp member
  exact whole_entries sound free tree proper faithful.2 holds entry among

end Whole

/-! ## What is whole after a collection -/

theorem delete_leaves (id : ObjectId) (device : Device) :
    Leaves device (finalState (delete id device)) := by
  have faults := delete_faults id device
  obtain ⟨after, ⟨deleted, without⟩ | ⟨_, ⟨error, failed⟩, same⟩⟩ := delete_outcome id device
  · rw [deleted] at faults ⊢
    exact without.leaves faults
  · rw [failed]
    exact ⟨fun _ _ => by rw [final_state_error, same.objects], same.refs, same.unreadable,
      same.unreadableRef, same.written, same.faults⟩

/-- However a collection ends, what it left is as it was. -/
theorem gc_leaves (ls : Lifestream) (roots : List ObjectId) (device : Device) :
    Leaves device (finalState (gc ls roots device)) := by
  apply run_keeps (Leaves device)
  · intro request state leaves
    cases request with
    | get id => exact leaves
    | listIds => exact leaves
    | delete id => exact leaves.trans (delete_leaves id state)
  · exact Leaves.refl device

theorem gc_spares (ls : Lifestream) (roots : List ObjectId) (device : Device) :
    SparesAlive (ReachedFrom (ls.readEdges device) roots) device
      (finalState (gc ls roots device)) :=
  safe_final _ (safe_gc ls roots device) (fun _ _ => Swept.spares) fun _ _ spared => spared

theorem Leaves.edges {before after : Device} (leaves : Leaves before after) (ls : Lifestream)
    (id : ObjectId) : ls.edges after id ⊆ ls.edges before id := by
  cases present : after.has id with
  | true => rw [edges_congr ls (leaves.records id present)]; exact List.Subset.refl _
  | false =>
      have absent : ls.contents after id = none := by
        by_contra held
        obtain ⟨object, held⟩ := Option.ne_none_iff_exists'.mp held
        rw [contents_present held] at present
        cases present
      simp [HorizonOs.Lifestream.edges, absent]

/-- What was whole under a root stays so, however the collection ends. -/
theorem Whole.collected {ls : Lifestream} {device : Device} (reads : AllRead ls device)
    {roots : List ObjectId} {target : ObjectId} (root : target ∈ roots)
    (whole : Whole ls device target) : Whole ls (finalState (gc ls roots device)) target := by
  have leaves := gc_leaves ls roots device
  intro reached path
  have back : Reaches (ls.edges device) target reached :=
    path.imp fun node _ => leaves.edges ls node
  obtain ⟨object, held⟩ := whole reached back
  have stays : (finalState (gc ls roots device)).has reached = true := by
    by_contra gone
    apply gc_spares ls roots device reached (contents_present held) (Bool.eq_false_iff.mpr gone)
    rw [reads.edges]
    exact ⟨target, root, back⟩
  exact ⟨object, (contents_congr ls (leaves.records reached stays)).trans held⟩

/-! ## What a snapshot adds -/

/-- What is new on the disk opens to an object of this kind, and was offered. -/
structure Adds (ls : Lifestream) (kind : Object → Prop) (before after : Device) : Prop
    extends Advances ls.store before after where
  records : ∀ id record, after.objects.lookup id = some record →
    before.objects.lookup id = some record ∨ ∃ object, kind object ∧
      object.encode ∈ after.written ∧ ls.store.verified id record = .ok object.encode

section Adds

variable {ls : Lifestream} {kind : Object → Prop}

theorem Adds.refl (device : Device) : Adds ls kind device device :=
  ⟨Advances.refl ls.store device, fun _ _ found => .inl found⟩

theorem Adds.trans (first second third : Device) (near : Adds ls kind first second)
    (far : Adds ls kind second third) : Adds ls kind first third where
  toAdvances := near.toAdvances.trans _ _ _ _ far.toAdvances
  records id record found := by
    rcases far.records id record found with old | new
    · rcases near.records id record old with older | ⟨object, isKind, offered, opens⟩
      · exact .inl older
      · exact .inr ⟨object, isKind, far.written offered, opens⟩
    · exact .inr new

theorem adds_put (object : Object) (isKind : kind object) :
    Preserves (Adds ls kind) (ls.put object) := by
  intro device
  have advances := advances_put ls.store object.encode device
  have written := put_written ls.store object.encode device
  refine ⟨advances, ?_⟩
  have start : ls.put object device =
      (if (device.noted object.encode).has (ls.store.idOf object.encode) then
        pure (ls.store.idOf object.encode)
        else ls.store.putNew (ls.store.idOf object.encode) object.encode)
          (device.noted object.encode) := rfl
  change ∀ id record, (finalState (ls.put object device)).objects.lookup id = some record → _
  change (finalState (ls.put object device)).written = _ at written
  rw [start] at written ⊢
  by_cases present : (device.noted object.encode).has (ls.store.idOf object.encode) = true
  · rw [if_pos present]
    exact fun _ _ found => .inl found
  · rw [if_neg present] at written ⊢
    obtain ⟨between, same, ⟨record, opened, put⟩ | ⟨_, error, put⟩⟩ :=
      put_new_outcome ls.store (ls.store.idOf object.encode) object.encode
        (device.noted object.encode)
    · rw [put, final_state_ok] at written ⊢
      intro id other found
      by_cases here : id = ls.store.idOf object.encode
      · subst here
        rw [Device.linked, AList.lookup_insert] at found
        cases found
        right
        refine ⟨object, isKind, ?_, ?_⟩
        · rw [written]
          exact List.mem_cons_self
        · simp only [ObjectStore.verified, opened, bind, Except.bind, if_true]
      · rw [Device.linked, AList.lookup_insert_ne here, same.objects] at found
        exact .inl found
    · rw [put, final_state_error, same.objects]
      exact fun _ _ found => .inl found

theorem adds_put_chunks (data : Bytes) (ranges : List (Nat × Nat))
    (isKind : ∀ piece, kind (.chunk piece)) :
    Preserves (Adds ls kind) (ls.putChunks data ranges) := by
  induction ranges with
  | nil => exact Preserves.pure Adds.refl []
  | cons range rest ih =>
      apply Preserves.bind Adds.trans (adds_put _ (isKind _))
      intro id
      apply Preserves.bind Adds.trans ih
      exact fun ids => Preserves.pure Adds.refl _

end Adds

/-- What snapshots put: anything but generations, within the widths of its fields. -/
def Object.Content (object : Object) : Prop := object.Fits ∧ ∀ g, object ≠ .generation g

theorem adds_write_bytes (ls : Lifestream) (data : Bytes) (few : (split data).length < 2 ^ 32) :
    Preserves (Adds ls Object.Content) (ls.writeBytes data) := by
  have chunks : ∀ piece, (Object.chunk piece).Content := fun piece => ⟨trivial, by simp⟩
  apply Preserves.bind_when (· = chunkIds ls data) Adds.trans (adds_put_chunks data _ chunks)
  · exact fun device ids after put => put_chunks_ids ls data device after ids put
  · rintro ids rfl
    exact adds_put _ ⟨file_fits ls data few, by simp⟩

mutual

theorem adds_snapshot_node (ls : Lifestream) (name : String) : ∀ node : HostNode, node.Proper →
    node.Faithful → Preserves (Adds ls Object.Content) (snapshotNode ls name node)
  | .file _ data, _, few => by
      rw [snapshotNode]
      apply Preserves.bind Adds.trans (adds_write_bytes ls data few)
      exact fun id => Preserves.pure Adds.refl _
  | .symlink target, proper, _ => by
      rw [snapshotNode]
      apply Preserves.bind Adds.trans (adds_write_bytes ls _ (target_fits target proper.2))
      exact fun id => Preserves.pure Adds.refl _
  | .special, _, _ => by
      rw [snapshotNode]
      exact Preserves.pure Adds.refl _
  | .dir _ entries, proper, faithful => by
      rw [snapshotNode]
      apply Preserves.bind_when (· = treeEntries ls entries) Adds.trans
        (adds_snapshot_entries ls entries proper faithful.2)
      · exact fun device children after snapped =>
          (snapshot_entries_holds ls entries device after children snapped).1
      · rintro children rfl
        apply Preserves.bind Adds.trans
          (adds_put _ ⟨tree_fits ls entries proper faithful.1, by simp⟩)
        exact fun id => Preserves.pure Adds.refl _

theorem adds_snapshot_entries (ls : Lifestream) : ∀ tree : List (Name × HostNode),
    ProperEntries tree → FaithfulEntries tree →
      Preserves (Adds ls Object.Content) (snapshotEntries ls tree)
  | [], _, _ => by
      rw [snapshotEntries]
      exact Preserves.pure Adds.refl _
  | (fileName, node) :: rest, proper, faithful => by
      obtain ⟨name, decoded, _⟩ := proper.1.decoded
      rw [snapshotEntries, decoded]
      apply Preserves.bind Adds.trans (adds_snapshot_node ls name node proper.2.1 faithful.1)
      intro entry
      apply Preserves.bind Adds.trans (adds_snapshot_entries ls rest proper.2.2.2 faithful.2)
      exact fun entries => Preserves.pure Adds.refl _

end

theorem adds_snapshot_dir (ls : Lifestream) (tree : HostTree) (proper : tree.Proper)
    (faithful : tree.Faithful) : Preserves (Adds ls Object.Content) (ls.snapshotDir tree) := by
  apply Preserves.bind_when (· = treeEntries ls tree) Adds.trans
    (adds_snapshot_entries ls tree proper faithful.2)
  · exact fun device entries after snapped =>
      (snapshot_entries_holds ls tree device after entries snapped).1
  · rintro entries rfl
    exact adds_put _ ⟨tree_fits ls tree proper faithful.1, by simp⟩

end HorizonOs.Lifestream
