import Mathlib.Data.List.Nodup
import Mathlib.Order.Lattice

/-!
# Lists in the order of their keys

An ordered map or set as the list of its items, each key once. An insertion
meets the item of the same key, if there is one, and decides what becomes of
the two.
-/

namespace HorizonOs.Lib.SortedList

set_option autoImplicit false

variable {Item Key : Type} [LinearOrder Key]

/-- The keys rise from item to item. -/
def Sorted (key : Item → Key) (items : List Item) : Prop :=
  items.Pairwise fun left right => key left < key right

def insertBy (key : Item → Key) (meet : Item → Item → Item) (item : Item) : List Item → List Item
  | [] => [item]
  | other :: rest =>
      if key item < key other then item :: other :: rest
      else if key item = key other then meet other item :: rest
      else other :: insertBy key meet item rest

def findKey (key : Item → Key) (k : Key) (items : List Item) : Option Item :=
  items.find? fun item => key item = k

section Insert

variable {key : Item → Key} {meet : Item → Item → Item}

theorem keys_insert (same : ∀ old new, key new = key old → key (meet old new) = key old)
    (item : Item) (items : List Item) (k : Key) :
    k ∈ (insertBy key meet item items).map key ↔ k = key item ∨ k ∈ items.map key := by
  induction items with
  | nil => simp [insertBy]
  | cons other rest ih =>
      rw [insertBy]
      split
      · simp
      · split
        case isTrue equal =>
          rw [List.map_cons, same other item equal, List.map_cons, List.mem_cons, equal]
          tauto
        case isFalse =>
          rw [List.map_cons, List.mem_cons, ih, List.map_cons, List.mem_cons]
          tauto

theorem sorted_insert (same : ∀ old new, key new = key old → key (meet old new) = key old)
    (item : Item) (items : List Item) (sorted : Sorted key items) :
    Sorted key (insertBy key meet item items) := by
  induction items with
  | nil => exact List.pairwise_singleton _ _
  | cons other rest ih =>
      obtain ⟨below, ordered⟩ := List.pairwise_cons.mp sorted
      rw [insertBy]
      split
      case isTrue less =>
        apply List.pairwise_cons.mpr
        refine ⟨?_, sorted⟩
        intro later member
        rcases List.mem_cons.mp member with rfl | inRest
        · exact less
        · exact less.trans (below later inRest)
      case isFalse notLess =>
        split
        case isTrue equal =>
          apply List.pairwise_cons.mpr
          refine ⟨?_, ordered⟩
          intro later member
          rw [same other item equal]
          exact below later member
        case isFalse different =>
          apply List.pairwise_cons.mpr
          refine ⟨?_, ih ordered⟩
          intro later member
          have inKeys : key later ∈ (insertBy key meet item rest).map key :=
            List.mem_map_of_mem member
          rcases (keys_insert same item rest _).mp inKeys with new | old
          · rw [new]
            exact lt_of_le_of_ne (not_lt.mp notLess) (Ne.symm different)
          · obtain ⟨before, inside, equal⟩ := List.mem_map.mp old
            rw [← equal]
            exact below before inside

/-- What comes after all others goes to the end. -/
theorem insert_last (item : Item) (items : List Item)
    (last : ∀ other ∈ items, key other < key item) :
    insertBy key meet item items = items ++ [item] := by
  induction items with
  | nil => rfl
  | cons other rest ih =>
      have above := last other List.mem_cons_self
      rw [insertBy, if_neg above.asymm, if_neg above.ne',
        ih fun later member => last later (List.mem_cons_of_mem _ member)]
      rfl

end Insert

theorem sorted_nodup {key : Item → Key} {items : List Item} (sorted : Sorted key items) :
    (items.map key).Nodup := by
  apply List.Nodup.of_map id
  rw [List.map_id, List.nodup_iff_pairwise_ne, List.pairwise_map]
  exact sorted.imp fun less => less.ne

theorem find_of_mem {key : Item → Key} {items : List Item} (sorted : Sorted key items)
    (item : Item) (member : item ∈ items) : findKey key (key item) items = some item := by
  induction items with
  | nil => cases member
  | cons other rest ih =>
      obtain ⟨below, ordered⟩ := List.pairwise_cons.mp sorted
      rw [findKey, List.find?_cons]
      rcases List.mem_cons.mp member with rfl | inRest
      · simp
      · have apart : key other ≠ key item := (below item inRest).ne
        simp only [apart, decide_false]
        exact ih ordered inRest

theorem find_isSome_iff {key : Item → Key} (items : List Item) (k : Key) :
    (findKey key k items).isSome = true ↔ k ∈ items.map key := by
  rw [findKey, List.find?_isSome, List.mem_map]
  simp

theorem key_of_find {key : Item → Key} {items : List Item} {k : Key} {item : Item}
    (found : findKey key k items = some item) : item ∈ items ∧ key item = k := by
  exact ⟨List.mem_of_find?_eq_some found, by simpa using List.find?_some found⟩

end HorizonOs.Lib.SortedList
