import HorizonOs.Keybuild.FatEntries
import HorizonOs.Keybuild.FatGeometry

/-!
# Clusters and chains

Clusters are handed out in a row, so that writing along a chain is one write and its
contents are one slice, and the links of a chain are read back as the chain.
-/

namespace HorizonOs.Keybuild.Fat

open HorizonOs.Lib.ByteCodec HorizonOs.Lib.Buffer

set_option autoImplicit false

theorem put_nothing {α : Type} (buffer : List α) (offset : Nat) : put buffer offset [] = buffer := by
  apply List.ext_getElem?
  intro i
  rw [get_put, if_neg]
  simp only [List.length_nil]
  omega

section Write

variable (geom : Geometry) (wide : 0 < geom.clusterBytes)

theorem cluster_offset_add (c n : Nat) (low : 2 ≤ c) :
    geom.clusterOffset (c + n) = geom.clusterOffset c + n * geom.clusterBytes := by
  have number : c + n - 2 = c - 2 + n := by omega
  rw [Geometry.clusterOffset, Geometry.clusterOffset, Geometry.clusterBytes, number]
  ring

/-- Data written along clusters in a row is written in one piece. -/
theorem write_clusters_put (image : Bytes) (c n : Nat) (data : Bytes) (low : 2 ≤ c)
    (fits : data.length ≤ n * geom.clusterBytes) :
    writeClusters geom image (List.range' c n) data = put image (geom.clusterOffset c) data := by
  induction n generalizing image c data with
  | zero =>
      have none : data = [] := List.length_eq_zero_iff.mp (by omega)
      rw [none, put_nothing]
      rfl
  | succ n ih =>
      rw [Nat.succ_mul] at fits
      rw [List.range'_succ, writeClusters]
      split_ifs with none
      · rw [none, put_nothing]
      · rw [ih _ (c + 1) _ (by omega) (by rw [List.length_drop]; omega)]
        by_cases more : geom.clusterBytes ≤ data.length
        · have size : (data.take geom.clusterBytes).length = geom.clusterBytes := by
            rw [List.length_take]
            omega
          have joined := put_put image (geom.clusterOffset c) (data.take geom.clusterBytes)
            (data.drop geom.clusterBytes)
          rw [size, List.take_append_drop] at joined
          rw [← cluster_after c low, joined]
        · rw [List.drop_eq_nil_of_le (by omega), put_nothing, List.take_of_length_le (by omega)]

end Write

/-! ## Links -/

/-- Each cluster of a chain has the next one in the table, the last the end mark. -/
theorem link_chain_get (eoc : Nat) (fat : List Nat) (c n i : Nat) :
    (linkChain eoc fat (List.range' c n))[i]? =
      if c ≤ i ∧ i < c + n ∧ i < fat.length then some (if i + 1 = c + n then eoc else i + 1)
      else fat[i]? := by
  induction n generalizing fat c with
  | zero =>
      rw [if_neg (by omega)]
      rfl
  | succ n ih =>
      cases n with
      | zero =>
          change (fat.set c eoc)[i]? = _
          rw [List.getElem?_set]
          by_cases here : c = i
          · subst here
            by_cases inside : c < fat.length
            · rw [if_pos rfl, if_pos inside, if_pos (by omega), if_pos rfl]
            · rw [if_pos rfl, if_neg inside, if_neg (by omega), List.getElem?_eq_none (by omega)]
          · rw [if_neg here, if_neg (by omega)]
      | succ n =>
          have rest := ih (fat.set c (c + 1)) (c + 1)
          rw [List.length_set, List.getElem?_set] at rest
          change (linkChain eoc (fat.set c (c + 1)) (List.range' (c + 1) (n + 1)))[i]? = _
          rw [rest]
          by_cases here : c = i
          · subst here
            by_cases inside : c < fat.length
            · rw [if_neg (by omega), if_pos rfl, if_pos inside, if_pos (by omega),
                if_neg (by omega)]
            · rw [if_neg (by omega), if_pos rfl, if_neg inside, if_neg (by omega),
                List.getElem?_eq_none (by omega)]
          · by_cases later : c + 1 ≤ i ∧ i < c + 1 + (n + 1) ∧ i < fat.length
            · have inside : c ≤ i ∧ i < c + (n + 1 + 1) ∧ i < fat.length := by omega
              have last : (i + 1 = c + 1 + (n + 1)) = (i + 1 = c + (n + 1 + 1)) := by
                rw [eq_iff_iff]
                omega
              rw [if_pos later, if_pos inside]
              simp only [last]
            · rw [if_neg later, if_neg here, if_neg (by omega)]

theorem length_link_chain (eoc : Nat) (fat : List Nat) (c n : Nat) :
    (linkChain eoc fat (List.range' c n)).length = fat.length := by
  induction n generalizing fat c with
  | zero => rfl
  | succ n ih =>
      cases n with
      | zero => exact List.length_set
      | succ n =>
          change (linkChain eoc (fat.set c (c + 1)) (List.range' (c + 1) (n + 1))).length = _
          rw [ih, List.length_set]

/-- The table links `n` clusters from `c` on as a chain. -/
def Linked (eoc : Nat) (fat : List Nat) (c n : Nat) : Prop :=
  ∀ i, c ≤ i → i < c + n → fat[i]? = some (if i + 1 = c + n then eoc else i + 1)

theorem linked_link_chain (eoc : Nat) (fat : List Nat) (c n : Nat) (inside : c + n ≤ fat.length) :
    Linked eoc (linkChain eoc fat (List.range' c n)) c n := by
  intro i low high
  rw [link_chain_get, if_pos (by omega)]

/-! ## Reading them -/

section Read

variable (volume : Volume) (image : Bytes)

/-- A reader follows the links of a chain to its end. -/
theorem chain_linked (eoc c n fuel : Nat) (low : 2 ≤ c) (some : 0 < n)
    (high : c + n ≤ volume.clusterCount + 2) (enough : n ≤ fuel)
    (links : ∀ i, c ≤ i → i < c + n →
      volume.next image i = if i + 1 = c + n then eoc else i + 1)
    (ends : volume.isEoc eoc = true)
    (goes : ∀ i, i ≤ volume.clusterCount + 1 → volume.isEoc i = false) :
    volume.chain image fuel c = Option.some (List.range' c n) := by
  induction n generalizing c fuel with
  | zero => exact absurd some (Nat.lt_irrefl 0)
  | succ n ih =>
      cases fuel with
      | zero => exact absurd enough (Nat.not_succ_le_zero n)
      | succ fuel =>
          have here := links c (Nat.le_refl c) (by omega)
          rw [Volume.chain, if_neg (by omega)]
          cases n with
          | zero =>
              rw [if_pos rfl] at here
              rw [here, if_pos ends]
              rfl
          | succ n =>
              have more := ih (c + 1) fuel (by omega) (by omega) (by omega) (by omega)
                (fun i after before => by
                  have order : c + 1 + (n + 1) = c + (n + 1 + 1) := by omega
                  rw [order]
                  exact links i (by omega) (by omega))
              rw [if_neg (by omega)] at here
              rw [here, goes (c + 1) (by omega), if_neg Bool.false_ne_true, more]
              rfl

/-- The contents of clusters in a row are one slice. -/
theorem contents_range (c n : Nat) (low : 2 ≤ c) :
    volume.contents image (List.range' c n) =
      slice image (volume.dataOffset + (c - 2) * volume.clusterBytes) (n * volume.clusterBytes) := by
  rw [← flat_map_slices, Volume.contents, List.range'_eq_map_range, List.flatMap_map]
  apply List.flatMap_congr
  intro i _
  have number : c + i - 2 = c - 2 + i := by omega
  rw [Volume.cluster, number, Nat.add_mul, Nat.add_assoc]

end Read

end HorizonOs.Keybuild.Fat
