import Mathlib.Data.List.Nodup

/-!
# Grouping by a key

The items of a list in groups, one for each key, in the order in which the keys come up.
-/

namespace HorizonOs.Lib.Grouping

set_option autoImplicit false

variable {Item Key : Type} [DecidableEq Key]

/-- An item goes to the group of its key, which is opened behind the others where there is none. -/
def addItem (key : Item → Key) (item : Item) : List (Key × List Item) → List (Key × List Item)
  | [] => [(key item, [item])]
  | group :: rest =>
      if group.1 = key item then (group.1, group.2 ++ [item]) :: rest
      else group :: addItem key item rest

def groups (key : Item → Key) (items : List Item) : List (Key × List Item) :=
  items.foldl (fun grouped item => addItem key item grouped) []

variable {key : Item → Key}

theorem keys_add (item : Item) (grouped : List (Key × List Item)) (k : Key) :
    k ∈ (addItem key item grouped).map Prod.fst ↔ k = key item ∨ k ∈ grouped.map Prod.fst := by
  induction grouped with
  | nil => simp [addItem]
  | cons group rest ih =>
      rw [addItem]
      split
      case isTrue same =>
        rw [List.map_cons, List.map_cons, List.mem_cons, same]
        tauto
      case isFalse =>
        rw [List.map_cons, List.map_cons, List.mem_cons, List.mem_cons, ih]
        tauto

theorem nodup_add (item : Item) (grouped : List (Key × List Item))
    (apart : (grouped.map Prod.fst).Nodup) : ((addItem key item grouped).map Prod.fst).Nodup := by
  induction grouped with
  | nil => exact List.nodup_singleton _
  | cons group rest ih =>
      rw [List.map_cons, List.nodup_cons] at apart
      rw [addItem]
      split
      case isTrue => exact List.nodup_cons.mpr apart
      case isFalse other =>
        apply List.nodup_cons.mpr
        constructor
        · intro member
          rcases (keys_add item rest group.1).mp member with same | among
          · exact other same
          · exact apart.1 among
        · exact ih apart.2

theorem items_add (item : Item) (grouped : List (Key × List Item)) :
    ((addItem key item grouped).flatMap Prod.snd).Perm (grouped.flatMap Prod.snd ++ [item]) := by
  induction grouped with
  | nil => exact List.Perm.refl _
  | cons group rest ih =>
      rw [addItem]
      split
      case isTrue =>
        rw [List.flatMap_cons, List.flatMap_cons, List.append_assoc, List.append_assoc]
        exact List.perm_append_comm.append_left group.2
      case isFalse =>
        rw [List.flatMap_cons, List.flatMap_cons, List.append_assoc]
        exact ih.append_left group.2

theorem own_add (item : Item) (grouped : List (Key × List Item))
    (own : ∀ group ∈ grouped, ∀ inner ∈ group.2, key inner = group.1) :
    ∀ group ∈ addItem key item grouped, ∀ inner ∈ group.2, key inner = group.1 := by
  induction grouped with
  | nil =>
      intro group member inner among
      rw [List.mem_singleton.mp member] at among ⊢
      rw [List.mem_singleton.mp among]
  | cons first rest ih =>
      have behind : ∀ group ∈ rest, ∀ inner ∈ group.2, key inner = group.1 :=
        fun group member => own group (List.mem_cons_of_mem _ member)
      rw [addItem]
      split
      case isTrue same =>
        intro group member inner among
        rcases List.mem_cons.mp member with here | later
        · rw [here] at among ⊢
          rcases List.mem_append.mp among with earlier | last
          · exact own first List.mem_cons_self inner earlier
          · rw [List.mem_singleton.mp last]
            exact same.symm
        · exact behind group later inner among
      case isFalse =>
        intro group member inner among
        rcases List.mem_cons.mp member with here | later
        · rw [here] at among ⊢
          exact own first List.mem_cons_self inner among
        · exact ih behind group later inner among

/-- Items that are added to groups that hold already: their keys stay apart, every item lies in
one group, and that is the group of its key. -/
theorem groups_from (items : List Item) (grouped : List (Key × List Item))
    (apart : (grouped.map Prod.fst).Nodup)
    (own : ∀ group ∈ grouped, ∀ inner ∈ group.2, key inner = group.1) :
    let after := items.foldl (fun grouped item => addItem key item grouped) grouped
    (after.map Prod.fst).Nodup ∧ (after.flatMap Prod.snd).Perm (grouped.flatMap Prod.snd ++ items) ∧
      ∀ group ∈ after, ∀ inner ∈ group.2, key inner = group.1 := by
  induction items generalizing grouped with
  | nil =>
      refine ⟨apart, ?_, own⟩
      rw [List.append_nil]
      exact List.Perm.refl _
  | cons item rest ih =>
      obtain ⟨apart, same, own⟩ := ih _ (nodup_add item grouped apart) (own_add item grouped own)
      refine ⟨apart, same.trans ?_, own⟩
      rw [List.append_cons]
      exact (items_add item grouped).append_right rest

theorem nodup_groups (items : List Item) : ((groups key items).map Prod.fst).Nodup :=
  (groups_from items [] List.nodup_nil nofun).1

theorem items_groups (items : List Item) : ((groups key items).flatMap Prod.snd).Perm items :=
  (groups_from items [] List.nodup_nil nofun).2.1

theorem own_groups (items : List Item) :
    ∀ group ∈ groups key items, ∀ inner ∈ group.2, key inner = group.1 :=
  (groups_from items [] List.nodup_nil nofun).2.2

end HorizonOs.Lib.Grouping
