import HorizonOs.Keybuild.FatRanges

/-!
# The writer on every size

What is asked of the writer at a size, and the sizes at which every tree gets it.
Below 33 sectors and at 34 the geometry subtracts out of range before it has looked
at the size, and from a tebibyte on the clusters outnumber what FAT32 has numbers
for, which nothing checks.
-/

namespace HorizonOs.Keybuild.Fat

open HorizonOs.Lib.ByteCodec HorizonOs.Lib.Buffer HorizonOs.Lib.Text HorizonOs.Lib.Machine

set_option autoImplicit false

/-- What is asked of the writer at a size: it stays in range, refuses a volume whose count
is not one of its type, and makes none but with a count that is. -/
structure Total (totalBytes : Nat) (root : Dir) (params : Params) : Prop where
  inRange : Checked.format totalBytes root params ≠ .error .fault
  refuses : (∀ geom, Checked.geometry (totalBytes / sector) = .ok geom → ¬geom.ValidCount) →
    ∃ error, Checked.format totalBytes root params = .error (.refused error)
  valid : ∀ image, Checked.format totalBytes root params = .ok image →
    ∃ geom, Checked.geometry (totalBytes / sector) = .ok geom ∧ geom.ValidCount

/-- The sizes at which all is well: no whole number of sectors, or 33, or from 35 on as
many as FAT32 has numbers for the clusters of. -/
def SizeServed (totalBytes : Nat) : Prop :=
  totalBytes % sector ≠ 0 ∨
    (totalBytes / sector = 33 ∨ 35 ≤ totalBytes / sector) ∧ totalBytes / sector < tooManySectors

theorem total_of_ragged (totalBytes : Nat) (root : Dir) (params : Params)
    (ragged : totalBytes % sector ≠ 0) : Total totalBytes root params := by
  have refused : Checked.format totalBytes root params =
      .error (.refused (.espTooSmall totalBytes)) := by
    rw [Checked.format, if_pos ragged]
  constructor
  · rw [refused]
    intro same
    cases same
  · intro _
    exact ⟨_, refused⟩
  · intro image made
    rw [refused] at made
    contradiction

theorem total_of_served (totalBytes : Nat) (root : Dir) (params : Params)
    (inMemory : root.InMemory) (served : SizeServed totalBytes) : Total totalBytes root params := by
  rcases served with ragged | ⟨room, few⟩
  · exact total_of_ragged totalBytes root params ragged
  have same := checked_format totalBytes root params inMemory room few
  have word : totalBytes / sector < 2 ^ 55 := by
    rw [tooManySectors] at few
    omega
  have geometries := checked_geometry _ room word
  have valid : ∀ image, format totalBytes root params = .ok image →
      ∃ geom, Checked.geometry (totalBytes / sector) = .ok geom ∧ geom.ValidCount := by
    intro image made
    obtain ⟨_, geom, found, agrees, _⟩ := format_checked made
    refine ⟨geom, ?_, ?_⟩
    · rw [geometries, found]
      rfl
    · apply (valid_count_iff geom).mpr
      refine ⟨agrees, ?_⟩
      intro kind
      rw [geometry] at found
      split at found
      case isTrue large =>
        cases found
        exact (fat32_count_iff _ large).mpr few
      case isFalse =>
        obtain ⟨spc, _, rfl⟩ := fat16_search_ok found
        cases kind
  cases made : format totalBytes root params with
  | error error =>
      have refused : Checked.format totalBytes root params = .error (.refused error) := by
        rw [same, made]
        rfl
      constructor
      · rw [refused]
        intro impossible
        cases impossible
      · intro _
        exact ⟨error, refused⟩
      · intro image answered
        rw [refused] at answered
        contradiction
  | ok image =>
      have done : Checked.format totalBytes root params = .ok image := by
        rw [same, made]
        rfl
      obtain ⟨geom, found, count⟩ := valid image made
      constructor
      · rw [done]
        intro impossible
        cases impossible
      · intro invalid
        exact absurd count (invalid geom found)
      · intro _ _
        exact ⟨geom, found, count⟩

/-! ## Where it goes wrong -/

/-- No refusal: a value, or a fault. -/
def Unrefused {α : Type} (result : Except Stop α) : Prop :=
  ∀ error, result ≠ .error (.refused error)

section Unrefused

variable {α β : Type}

theorem unrefused_ok (value : α) : Unrefused (.ok value) := by
  intro error impossible
  cases impossible

theorem unrefused_fault : Unrefused (.error .fault : Except Stop α) := by
  intro error impossible
  cases impossible

theorem unrefused_bind {action : Except Stop α} {next : α → Except Stop β}
    (first : Unrefused action) (others : ∀ value, Unrefused (next value)) :
    Unrefused (action >>= next) := by
  cases action with
  | ok value => exact others value
  | error stop =>
      intro error same
      cases same
      exact first error rfl

theorem unrefused_if {condition : Prop} [Decidable condition] {yes no : Except Stop α}
    (left : Unrefused yes) (right : Unrefused no) :
    Unrefused (if condition then yes else no) := by
  split
  · exact left
  · exact right

theorem unrefused_add (width x y : Nat) : Unrefused (checkedAdd Stop.fault width x y) :=
  unrefused_if (unrefused_ok _) unrefused_fault

theorem unrefused_mul (width x y : Nat) : Unrefused (checkedMul Stop.fault width x y) :=
  unrefused_if (unrefused_ok _) unrefused_fault

theorem unrefused_sub (x y : Nat) : Unrefused (checkedSub Stop.fault x y) :=
  unrefused_if (unrefused_ok _) unrefused_fault

theorem unrefused_put (image : Bytes) (offset : Nat) (bytes : Bytes) :
    Unrefused (checkedPut Stop.fault image offset bytes) :=
  unrefused_if (unrefused_ok _) unrefused_fault

end Unrefused

section Writes

variable (geom : Geometry)

theorem unrefused_cluster_bytes : Unrefused (Checked.clusterBytes geom) := unrefused_mul _ _ _

theorem unrefused_cluster_offset (c : Nat) : Unrefused (Checked.clusterOffset geom c) := by
  apply unrefused_bind
  · apply unrefused_bind
    · exact unrefused_bind (unrefused_mul _ _ _) fun _ => unrefused_add _ _ _
    · exact fun _ => unrefused_add _ _ _
  · intro _
    apply unrefused_bind (unrefused_sub _ _)
    intro _
    apply unrefused_bind (unrefused_mul _ _ _)
    intro _
    exact unrefused_bind (unrefused_add _ _ _) fun _ => unrefused_mul _ _ _

theorem unrefused_write_clusters (data : Bytes) (i : Nat) (image : Bytes) (chain : List Nat) :
    Unrefused (Checked.writeClusters geom data i image chain) := by
  induction chain generalizing i image with
  | nil => exact unrefused_ok _
  | cons c chain ih =>
      apply unrefused_bind (unrefused_cluster_bytes geom)
      intro _
      apply unrefused_bind (unrefused_cluster_offset geom c)
      intro _
      apply unrefused_bind (unrefused_mul _ _ _)
      intro _
      apply unrefused_if (unrefused_ok _)
      apply unrefused_bind (unrefused_add _ _ _)
      intro _
      apply unrefused_bind (unrefused_sub _ _)
      intro _
      exact unrefused_bind (unrefused_put _ _ _) fun _ => ih _ _

theorem unrefused_write_fats (b : Builder) : Unrefused (Checked.writeFats geom b) := by
  have copies : ∀ (list : List Nat) (image : Bytes), Unrefused (list.foldlM (fun image i => do
      let skipped ← Checked.mul64 i geom.fatSize
      let start ← Checked.add64 geom.fatStartSector skipped
      let offset ← Checked.mul64 start sector
      Checked.copy image offset (fatBytes geom.fatType b.fat)) image) := by
    intro list
    induction list with
    | nil => exact fun _ => unrefused_ok _
    | cons i list ih =>
        intro image
        rw [List.foldlM_cons]
        apply unrefused_bind _ fun _ => ih _
        apply unrefused_bind (unrefused_mul _ _ _)
        intro _
        apply unrefused_bind (unrefused_add _ _ _)
        intro _
        exact unrefused_bind (unrefused_mul _ _ _) fun _ => unrefused_put _ _ _
  apply unrefused_bind (unrefused_mul _ _ _)
  intro _
  exact unrefused_bind (copies _ _) fun _ => unrefused_ok _

theorem unrefused_finish (params : Params) (b : Builder) :
    Unrefused (Checked.finish geom params b) := by
  apply unrefused_bind (unrefused_write_fats geom b)
  intro table
  apply unrefused_bind
  · apply unrefused_bind (unrefused_put _ _ _)
    intro _
    apply unrefused_if
    · exact unrefused_bind (unrefused_put _ _ _) fun _ => unrefused_ok _
    · exact unrefused_bind (unrefused_ok _) fun _ => unrefused_ok _
  · intro _
    apply unrefused_if
    · apply unrefused_bind _ fun _ => unrefused_ok _
      apply unrefused_bind (unrefused_sub _ _)
      intro _
      apply unrefused_bind (unrefused_put _ _ _)
      intro _
      exact unrefused_bind (unrefused_put _ _ _) fun _ => unrefused_ok _
    · exact unrefused_bind (unrefused_ok _) fun _ => unrefused_ok _

theorem unrefused_link_chain (eoc : Nat) (fat chain : List Nat) :
    Unrefused (Checked.linkChain eoc fat chain) := by
  induction chain generalizing fat with
  | nil => exact unrefused_ok _
  | cons c rest ih =>
      cases rest with
      | nil => exact unrefused_if (unrefused_ok _) unrefused_fault
      | cons next more =>
          apply unrefused_bind
          · exact unrefused_if (unrefused_ok _) unrefused_fault
          · exact fun _ => ih _

theorem unrefused_alloc (b : Builder) (n : Nat) (free : Checked.isFull geom b n = .ok false) :
    Unrefused (Checked.allocChain geom b n) := by
  rw [Checked.allocChain, free]
  change Unrefused (Checked.add32 b.nextFree (n % 2 ^ 32) >>= fun stop =>
    Checked.linkChain geom.eoc b.fat (List.range' b.nextFree (n % 2 ^ 32)) >>= fun fat =>
      .ok (List.range' b.nextFree (n % 2 ^ 32), (⟨b.image, fat, stop⟩ : Builder)))
  apply unrefused_bind (unrefused_add _ _ _)
  intro _
  exact unrefused_bind (unrefused_link_chain _ _ _) fun _ => unrefused_ok _

theorem unrefused_store (b : Builder) (chain : Option (List Nat)) (buf : Bytes) :
    Unrefused (Checked.storeDir geom b chain buf) := by
  cases chain with
  | some chain =>
      exact unrefused_bind (unrefused_write_clusters geom _ _ _ _) fun _ => unrefused_ok _
  | none =>
      apply unrefused_bind
      · exact unrefused_bind (unrefused_mul _ _ _) fun _ => unrefused_add _ _ _
      · intro _
        apply unrefused_bind (unrefused_mul _ _ _)
        intro _
        exact unrefused_bind (unrefused_put _ _ _) fun _ => unrefused_ok _

/-- An empty root directory takes one cluster, and is not refused it. -/
theorem unrefused_empty_root (params : Params) (totalBytes : Nat)
    (kind : geom.fatType = .fat32) (wide : Checked.clusterBytes geom = .ok 4096)
    (some : 0 < geom.clusterCount) (word : geom.clusterCount < 2 ^ 55) :
    Unrefused (Checked.renderRoot geom params (blank geom totalBytes) .nil) := by
  have max : geom.clusterCount + 1 < 2 ^ 64 := by omega
  have clusters : Checked.dirClusters geom .nil true = .ok 1 := by
    have slots : Checked.contentSlots .nil true = .ok 1 := by
      decide
    rw [Checked.dirClusters, slots, wide]
    decide
  have free : Checked.isFull geom (blank geom totalBytes) 1 = .ok false := by
    have stop : (blank geom totalBytes).nextFree + 1 < 2 ^ 64 := by
      change 2 + 1 < 2 ^ 64
      decide
    have last : 1 ≤ (blank geom totalBytes).nextFree + 1 := Nat.le_add_left 1 _
    have room : ¬geom.clusterCount + 1 < (blank geom totalBytes).nextFree + 1 - 1 := by
      change ¬geom.clusterCount + 1 < 2
      omega
    simp only [Checked.isFull, Nat.one_ne_zero, if_false, checked_add_ok stop, checked_sub_ok last,
      Checked.maxCluster, checked_add_ok max, room, decide_false, bind, Except.bind]
  rw [Checked.renderRoot, kind]
  change Unrefused (Checked.dirClusters geom .nil true >>= _)
  rw [clusters]
  change Unrefused (Checked.allocChain geom (blank geom totalBytes) 1 >>= _)
  apply unrefused_bind (unrefused_alloc geom _ 1 free)
  intro taken
  apply unrefused_bind
  · cases taken.1 with
    | nil => exact unrefused_fault
    | cons first rest => exact unrefused_ok first
  · intro _
    have rendered : Checked.renderChildren geom params taken.2 0 [] .nil = .ok ([], taken.2) := by
      rw [Checked.renderChildren]
      exact fun _ _ _ _ _ _ _ impossible => by cases impossible
    have planned : planChildren .nil = Option.some [] := rfl
    rw [Checked.renderDir, planned]
    change Unrefused (Checked.renderChildren geom params taken.2 0 [] .nil >>= _)
    rw [rendered]
    change Unrefused (Checked.storeDir geom taken.2 (Option.some taken.1)
      (openingEntries params true fat32RootCluster 0 ++ []))
    exact unrefused_store geom _ _ _

end Writes

/-- However many clusters a volume has, an empty tree is not refused for their number. -/
theorem unrefused_empty (n : Nat) (large : tooManySectors ≤ n) (word : n < 2 ^ 55)
    (params : Params) : Unrefused (Checked.format (n * sector) .nil params) := by
  have many : 64 * 2048 ≤ n := by
    rw [tooManySectors] at large
    omega
  set geom := fat32Geometry n with geomDef
  have count : 0x0FFFFFF5 < geom.clusterCount := by
    by_contra few
    have below : n < tooManySectors := (fat32_count_iff n many).mp (Nat.not_lt.mp few)
    omega
  have agrees : countAgrees geom = true := by
    have enough : 65525 ≤ geom.clusterCount := by omega
    exact decide_eq_true enough
  have whole : n * sector % sector = 0 := Nat.mul_mod_left n sector
  have sectors : n * sector / sector = n := Nat.mul_div_cancel n (by decide)
  have found : Checked.geometry n = .ok geom := by
    rw [Checked.geometry, if_pos many]
    exact checked_fat32 n many word
  have bounded : geom.clusterCount < 2 ^ 55 := by
    have below : geom.clusterCount ≤ n := (Nat.div_le_self _ _).trans (Nat.sub_le _ _)
    omega
  have spc : fat32Spc n = 8 := by
    rw [tooManySectors] at large
    simp only [fat32Spc]
    split_ifs <;> omega
  have wide : Checked.clusterBytes geom = .ok 4096 := by
    change Checked.mul64 (fat32Spc n) sector = .ok 4096
    rw [spc]
    decide
  have ragged : ¬n * sector % sector ≠ 0 := fun odd => odd whole
  rw [Checked.format, if_neg ragged, sectors, found]
  change Unrefused (if ¬countAgrees geom = true then _ else _)
  rw [if_neg fun differs => differs agrees]
  by_cases capacity : n * sector < 2 ^ 63 ∧ (geom.clusterCount + 2) * 4 < 2 ^ 63
  · have entries : geom.clusterCount + 2 < 2 ^ 64 := by omega
    have allocated : Checked.allocate geom (n * sector) = .ok (blank geom (n * sector)) := by
      rw [Checked.allocate, Checked.add64, checked_add_ok entries]
      exact if_pos capacity
    rw [allocated]
    change Unrefused (Checked.renderRoot geom params (blank geom (n * sector)) .nil >>=
      Checked.finish geom params)
    apply unrefused_bind
    · exact unrefused_empty_root geom params (n * sector) rfl wide (by omega) bounded
    · exact fun _ => unrefused_finish geom params _
  · have entries : geom.clusterCount + 2 < 2 ^ 64 := by omega
    have failed : Checked.allocate geom (n * sector) = .error .fault := by
      rw [Checked.allocate, Checked.add64, checked_add_ok entries]
      exact if_neg capacity
    rw [failed]
    exact unrefused_fault

theorem format_faults (size : Nat) (root : Dir) (params : Params) (whole : size % sector = 0)
    (tight : size / sector < 33 ∨ size / sector = 34) :
    Checked.format size root params = .error .fault := by
  rw [Checked.format, if_neg fun odd => odd whole, checked_geometry_fault _ tight]
  rfl

/-- At a size, the writer is total on every tree exactly when the size is served; the
sizes too small for the geometry's subtractions fault on every tree. -/
theorem format_total_iff (totalBytes : UInt64) :
    ((∀ root params, root.InMemory → Total totalBytes.toNat root params) ↔
      SizeServed totalBytes.toNat) ∧
    ∀ root params, totalBytes.toNat % sector = 0 →
      totalBytes.toNat / sector < 33 ∨ totalBytes.toNat / sector = 34 →
        Checked.format totalBytes.toNat root params = .error .fault := by
  have word : totalBytes.toNat < 2 ^ 64 := totalBytes.toNat_lt
  generalize totalBytes.toNat = size at word
  have emptyInMemory : Dir.nil.InMemory := by
    change 0 < 2 ^ 60
    decide
  refine ⟨?_, format_faults size⟩
  constructor
  · intro always
    by_contra unserved
    rw [SizeServed, not_or, not_not] at unserved
    obtain ⟨whole, outside⟩ := unserved
    have even : size / sector * sector = size := Nat.div_mul_cancel (Nat.dvd_of_mod_eq_zero whole)
    have bounded : size / sector < 2 ^ 55 := by
      rw [Nat.div_lt_iff_lt_mul (by decide)]
      exact word
    have empty := always .nil sampleParams emptyInMemory
    by_cases tight : size / sector < 33 ∨ size / sector = 34
    · -- a subtraction of the geometry is out of range
      apply empty.inRange
      exact format_faults size .nil sampleParams whole tight
    · -- more clusters than FAT32 has numbers for, and not refused
      have large : tooManySectors ≤ size / sector := by
        by_contra few
        exact outside ⟨by omega, Nat.not_le.mp few⟩
      have many : 64 * 2048 ≤ size / sector := by
        rw [tooManySectors] at large
        omega
      have invalid : ∀ geom, Checked.geometry (size / sector) = .ok geom → ¬geom.ValidCount := by
        intro geom found valid
        rw [Checked.geometry, if_pos many, checked_fat32 _ many bounded] at found
        cases found
        have below := (fat32_count_iff _ many).mp valid.2
        omega
      obtain ⟨error, refused⟩ := empty.refuses invalid
      have unrefused := unrefused_empty (size / sector) large bounded sampleParams
      rw [even] at unrefused
      exact unrefused error refused
  · intro served root params inMemory
    exact total_of_served size root params inMemory served

/-- No sectors at all: the first subtraction is out of range. -/
theorem empty_volume_faults :
    Checked.format 0 .nil sampleParams = .error .fault ∧
      ¬∀ root params, root.InMemory → Total (0 : UInt64).toNat root params := by
  have fault : Checked.format 0 .nil sampleParams = .error .fault := by
    decide
  refine ⟨fault, ?_⟩
  intro always
  apply (always .nil sampleParams (by change 0 < 2 ^ 60; decide)).inRange
  exact fault

end HorizonOs.Keybuild.Fat
