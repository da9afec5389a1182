import HorizonOs.Keybuild.Cpio

/-!
# The nodes of a tree in the order they are written

Each node with the names that lead to it: every node once, and a directory before all that
it holds.
-/

namespace HorizonOs.Keybuild.Cpio

open HorizonOs.Lib.ByteCodec HorizonOs.Lib.Text

set_option autoImplicit false

/-- The node that names lead to from one. -/
def Node.lookup : List String → Node → Option Node
  | [], node => some node
  | name :: names, .dir _ entries => (entries.find name).bind (Node.lookup names)
  | _ :: _, _ => none

/-- The node that names lead to. The directory itself is not one of its nodes. -/
def Dir.lookup : List String → Dir → Option Node
  | [], _ => none
  | name :: names, dir => (dir.find name).bind (Node.lookup names)

mutual

def Node.count : Node → Nat
  | .dir _ entries => entries.count + 1
  | .file _ _ => 1
  | .symlink _ => 1
  | .device _ _ _ _ => 1

/-- How many nodes a directory holds, at any depth. -/
def Dir.count : Dir → Nat
  | .nil => 0
  | .cons _ node rest => node.count + Dir.count rest

end

mutual

def Node.listing (here : List String) : Node → List (List String × Node)
  | .dir mode entries => (here, .dir mode entries) :: entries.listing here
  | .file mode data => [(here, .file mode data)]
  | .symlink target => [(here, .symlink target)]
  | .device mode ifmt major minor => [(here, .device mode ifmt major minor)]

def Dir.listing (above : List String) : Dir → List (List String × Node)
  | .nil => []
  | .cons name node rest => node.listing (above ++ [name]) ++ Dir.listing above rest

end

mutual

theorem length_node_listing (here : List String) : ∀ node : Node,
    (node.listing here).length = node.count
  | .dir _ entries => by
      rw [Node.listing, List.length_cons, length_listing here entries, Node.count]
  | .file _ _ => by rw [Node.listing, List.length_singleton, Node.count]
  | .symlink _ => by rw [Node.listing, List.length_singleton, Node.count]
  | .device _ _ _ _ => by rw [Node.listing, List.length_singleton, Node.count]

theorem length_listing (above : List String) : ∀ dir : Dir,
    (dir.listing above).length = dir.count
  | .nil => rfl
  | .cons _ node rest => by
      rw [Dir.listing, List.length_append, length_node_listing, length_listing above rest,
        Dir.count]

end

theorem find_names (name : String) (dir : Dir) (node : Node) (found : dir.find name = some node) :
    name ∈ dir.names := by
  match dir with
  | .nil => cases found
  | .cons other _ rest =>
      rw [Dir.find] at found
      rw [Dir.names]
      by_cases same : name = other
      · rw [same]
        exact List.mem_cons_self
      · rw [if_neg same] at found
        exact List.mem_cons_of_mem _ (find_names name rest node found)

theorem lookup_cons_self (name : String) (names : List String) (node : Node) (rest : Dir) :
    (Dir.cons name node rest).lookup (name :: names) = node.lookup names := by
  rw [Dir.lookup, Dir.find, if_pos rfl, Option.bind_some]

theorem lookup_cons_other (first name : String) (names : List String) (node : Node) (rest : Dir)
    (other : first ≠ name) :
    (Dir.cons name node rest).lookup (first :: names) = rest.lookup (first :: names) := by
  rw [Dir.lookup, Dir.lookup, Dir.find, if_neg other]

theorem lookup_names (names : List String) (dir : Dir) (node : Node)
    (found : dir.lookup names = some node) : ∃ first more, names = first :: more ∧ first ∈ dir.names := by
  cases names with
  | nil => cases found
  | cons first more =>
      rw [Dir.lookup, Option.bind_eq_some_iff] at found
      obtain ⟨child, here, _⟩ := found
      exact ⟨first, more, rfl, find_names first dir child here⟩

/-- A node that is no directory lists itself. -/
theorem mem_leaf_listing (here names : List String) (node found : Node)
    (leaf : ∀ name more, node.lookup (name :: more) = none) :
    (names, found) ∈ [(here, node)] ↔
      ∃ below, names = here ++ below ∧ node.lookup below = some found := by
  rw [List.mem_singleton, Prod.mk.injEq]
  constructor
  · rintro ⟨rfl, rfl⟩
    exact ⟨[], (List.append_nil _).symm, by rw [Node.lookup]⟩
  · rintro ⟨below, rfl, reached⟩
    cases below with
    | nil =>
        rw [Node.lookup] at reached
        exact ⟨List.append_nil _, (Option.some.inj reached).symm⟩
    | cons name more =>
        rw [leaf] at reached
        cases reached

mutual

/-- What a node lists is what is found from it. -/
theorem mem_node_listing (here names : List String) (found : Node) : ∀ node : Node, node.Valid →
    ((names, found) ∈ node.listing here ↔
      ∃ below, names = here ++ below ∧ node.lookup below = some found)
  | .dir mode entries, valid => by
      have inside := mem_listing here names found entries valid.2
      rw [Node.listing, List.mem_cons, inside, Prod.mk.injEq]
      constructor
      · rintro (⟨rfl, rfl⟩ | ⟨below, rfl, reached⟩)
        · exact ⟨[], (List.append_nil _).symm, by rw [Node.lookup]⟩
        · cases below with
          | nil => cases reached
          | cons name more => exact ⟨name :: more, rfl, reached⟩
      · rintro ⟨below, rfl, reached⟩
        cases below with
        | nil =>
            rw [Node.lookup] at reached
            exact Or.inl ⟨List.append_nil _, (Option.some.inj reached).symm⟩
        | cons name more => exact Or.inr ⟨name :: more, rfl, reached⟩
  | .file _ _, _ => by
      rw [Node.listing]
      exact mem_leaf_listing here names _ found fun _ _ => rfl
  | .symlink _, _ => by
      rw [Node.listing]
      exact mem_leaf_listing here names _ found fun _ _ => rfl
  | .device _ _ _ _, _ => by
      rw [Node.listing]
      exact mem_leaf_listing here names _ found fun _ _ => rfl

theorem mem_listing (above names : List String) (found : Node) : ∀ dir : Dir, dir.Valid →
    ((names, found) ∈ dir.listing above ↔
      ∃ below, names = above ++ below ∧ dir.lookup below = some found)
  | .nil, _ => by
      rw [Dir.listing]
      constructor
      · intro none
        cases none
      · rintro ⟨below, _, reached⟩
        obtain ⟨_, _, _, member⟩ := lookup_names below .nil found reached
        cases member
  | .cons name node rest, valid => by
      obtain ⟨_, fine, sorted, restValid⟩ := valid
      have here := mem_node_listing (above ++ [name]) names found node fine
      have later := mem_listing above names found rest restValid
      rw [Dir.listing, List.mem_append, here, later]
      constructor
      · rintro (⟨below, rfl, reached⟩ | ⟨below, rfl, reached⟩)
        · refine ⟨name :: below, List.append_assoc _ _ _, ?_⟩
          rw [lookup_cons_self]
          exact reached
        · obtain ⟨first, more, rfl, member⟩ := lookup_names below rest found reached
          refine ⟨first :: more, rfl, ?_⟩
          rw [lookup_cons_other first name more node rest (sorted first member).ne']
          exact reached
      · rintro ⟨below, rfl, reached⟩
        obtain ⟨first, more, rfl, _⟩ := lookup_names below _ found reached
        by_cases same : first = name
        · rw [same, lookup_cons_self] at reached
          rw [same]
          exact Or.inl ⟨more, (List.append_assoc above [name] more).symm, reached⟩
        · rw [lookup_cons_other first name more node rest same] at reached
          exact Or.inr ⟨first :: more, rfl, reached⟩

end

theorem listing_under (above names : List String) (found : Node) (dir : Dir) (valid : dir.Valid)
    (member : (names, found) ∈ dir.listing above) :
    ∃ first more, names = above ++ first :: more ∧ first ∈ dir.names := by
  obtain ⟨below, rfl, reached⟩ := (mem_listing above names found dir valid).mp member
  obtain ⟨first, more, rfl, inside⟩ := lookup_names below dir found reached
  exact ⟨first, more, rfl, inside⟩

mutual

/-- No names twice. -/
theorem node_listing_nodup (here : List String) : ∀ node : Node, node.Valid →
    ((node.listing here).map Prod.fst).Nodup
  | .dir mode entries, valid => by
      rw [Node.listing, List.map_cons, List.nodup_cons]
      constructor
      · intro again
        obtain ⟨⟨names, found⟩, member, same⟩ := List.mem_map.mp again
        obtain ⟨first, more, longer, _⟩ := listing_under here names found entries valid.2 member
        have lengths : here.length = (here ++ first :: more).length :=
          congrArg List.length (same.symm.trans longer)
        rw [List.length_append, List.length_cons] at lengths
        omega
      · exact listing_nodup here entries valid.2
  | .file _ _, _ => by
      rw [Node.listing]
      exact List.nodup_singleton _
  | .symlink _, _ => by
      rw [Node.listing]
      exact List.nodup_singleton _
  | .device _ _ _ _, _ => by
      rw [Node.listing]
      exact List.nodup_singleton _

theorem listing_nodup (above : List String) : ∀ dir : Dir, dir.Valid →
    ((dir.listing above).map Prod.fst).Nodup
  | .nil, _ => List.nodup_nil
  | .cons name node rest, valid => by
      obtain ⟨_, fine, sorted, restValid⟩ := valid
      rw [Dir.listing, List.map_append]
      apply List.Nodup.append (node_listing_nodup (above ++ [name]) node fine)
        (listing_nodup above rest restValid)
      intro names inNode inRest
      obtain ⟨⟨here, found⟩, inNode, same⟩ := List.mem_map.mp inNode
      obtain ⟨⟨there, other⟩, inRest, same'⟩ := List.mem_map.mp inRest
      obtain ⟨below, path, _⟩ := (mem_node_listing _ _ found node fine).mp inNode
      obtain ⟨first, more, path', later⟩ := listing_under above _ other rest restValid inRest
      have equal : here = there := same.trans same'.symm
      rw [path, path', List.append_assoc] at equal
      have heads : name :: below = first :: more := List.append_cancel_left equal
      cases heads
      exact absurd (sorted name later) (lt_irrefl name)

end

/-- Where an item stands in two lists joined. -/
theorem split_append {α : Type} {left right before after : List α} {item : α}
    (split : left ++ right = before ++ item :: after) :
    (∃ rest, left = before ++ item :: rest) ∨
      ∃ rest, before = left ++ rest ∧ right = rest ++ item :: after := by
  rcases List.append_eq_append_iff.mp split with ⟨rest, shape, right⟩ | ⟨rest, shape, right⟩
  · exact Or.inr ⟨rest, shape, right⟩
  · cases rest with
    | nil =>
        rw [List.append_nil] at shape
        exact Or.inr ⟨[], by rw [shape, List.append_nil], right.symm⟩
    | cons first rest =>
        cases right
        exact Or.inl ⟨rest, shape⟩

/-- There is nothing under a node that lists itself alone. -/
theorem leaf_ordered {here names front back : List String} {node found : Node}
    {before after : List (List String × Node)}
    (split : [(here, node)] = before ++ (names, found) :: after)
    (shape : names = here ++ front ++ back) (more : back ≠ []) : False := by
  have member : (names, found) ∈ [(here, node)] := by
    rw [split]
    exact List.mem_append_right _ List.mem_cons_self
  have same : names = here := congrArg Prod.fst (List.mem_singleton.mp member)
  have lengths := congrArg List.length (same.symm.trans shape)
  have some := List.length_pos_iff.mpr more
  rw [List.length_append, List.length_append] at lengths
  omega

mutual

/-- A directory is listed before all that it holds. -/
theorem node_listing_ordered (here : List String) : ∀ node : Node, node.Valid →
    ∀ before names found after, node.listing here = before ++ (names, found) :: after →
      ∀ front back, names = here ++ front ++ back → back ≠ [] →
        ∃ mode entries, (here ++ front, Node.dir mode entries) ∈ before
  | .dir mode entries, valid => by
      intro before names found after split front back shape more
      rw [Node.listing] at split
      cases before with
      | nil =>
          have first : [(here, Node.dir mode entries)] = [] ++ (names, found) :: [] := by
            rw [(List.cons.inj split).1]
            rfl
          exact (leaf_ordered first shape more).elim
      | cons first before =>
          obtain ⟨rfl, rest⟩ := List.cons.inj split
          cases front with
          | nil =>
              rw [List.append_nil]
              exact ⟨mode, entries, List.mem_cons_self⟩
          | cons name front =>
              obtain ⟨mode, entries, member⟩ := listing_ordered here entries valid.2 before names
                found after rest (name :: front) back shape (List.cons_ne_nil _ _) more
              exact ⟨mode, entries, List.mem_cons_of_mem _ member⟩
  | .file _ _, _ => by
      intro before names found after split front back shape more
      rw [Node.listing] at split
      exact (leaf_ordered split shape more).elim
  | .symlink _, _ => by
      intro before names found after split front back shape more
      rw [Node.listing] at split
      exact (leaf_ordered split shape more).elim
  | .device _ _ _ _, _ => by
      intro before names found after split front back shape more
      rw [Node.listing] at split
      exact (leaf_ordered split shape more).elim

theorem listing_ordered (above : List String) : ∀ dir : Dir, dir.Valid →
    ∀ before names found after, dir.listing above = before ++ (names, found) :: after →
      ∀ front back, names = above ++ front ++ back → front ≠ [] → back ≠ [] →
        ∃ mode entries, (above ++ front, Node.dir mode entries) ∈ before
  | .nil, _ => by
      intro before names found after split
      cases before <;> cases split
  | .cons name node rest, valid => by
      intro before names found after split front back shape some more
      obtain ⟨_, fine, _, restValid⟩ := valid
      rw [Dir.listing] at split
      rcases split_append split with ⟨later, inNode⟩ | ⟨later, rfl, inRest⟩
      · have member : (names, found) ∈ node.listing (above ++ [name]) := by
          rw [inNode]
          exact List.mem_append_right _ List.mem_cons_self
        obtain ⟨below, path, _⟩ := (mem_node_listing _ _ found node fine).mp member
        cases front with
        | nil => exact absurd rfl some
        | cons first front =>
            have heads : name :: below = first :: (front ++ back) := by
              rw [path, List.append_assoc, List.append_assoc] at shape
              exact List.append_cancel_left shape
            obtain ⟨rfl, _⟩ := List.cons.inj heads
            have under : names = above ++ [name] ++ front ++ back := by
              rw [shape, List.append_assoc above [name] front]
              rfl
            obtain ⟨mode, entries, found⟩ := node_listing_ordered (above ++ [name]) node fine
              before names found later inNode front back under more
            rw [List.append_assoc] at found
            exact ⟨mode, entries, found⟩
      · obtain ⟨mode, entries, found⟩ := listing_ordered above rest restValid later names found
          after inRest front back shape some more
        exact ⟨mode, entries, List.mem_append_right _ found⟩

end

end HorizonOs.Keybuild.Cpio
