import HorizonOs.Lib.LexicalPath
import HorizonOs.Lib.SortedList
import Mathlib.Data.List.Lex

/-!
# Paths in order, and maps from paths

Paths are told apart, and ordered, by their components. A map from paths is the list of
its entries in that order; a map from paths to paths is a graph.
-/

namespace HorizonOs.Lib.PathOrder

open HorizonOs.Lib.ByteCodec HorizonOs.Lib.LexicalPath HorizonOs.Lib.SortedList

set_option autoImplicit false

/-- Where a component stands in the order of components. -/
def componentRank : Component → List Nat
  | .root => [0]
  | .cur => [1]
  | .parent => [2]
  | .normal name => 3 :: name.map UInt8.toNat

/-- What is compared of a path. -/
abbrev PathKey := List (List Nat)

def pathKey (path : Bytes) : PathKey := (components path).map componentRank

def entryKey {Value : Type} (entry : Bytes × Value) : PathKey := pathKey entry.1

/-- `BTreeMap<PathBuf, Value>`. -/
structure PathMap (Value : Type) where
  entries : List (Bytes × Value)
  sorted : Sorted entryKey entries

variable {Value : Type}

def PathMap.empty : PathMap Value := ⟨[], List.Pairwise.nil⟩

/-- An insertion keeps the path that is there and replaces its value. -/
def PathMap.insert (map : PathMap Value) (path : Bytes) (value : Value) : PathMap Value where
  entries := insertBy entryKey (fun old new => (old.1, new.2)) (path, value) map.entries
  sorted := sorted_insert (by intro _ _ _; rfl) (path, value) map.entries map.sorted

/-- The paths, in order. -/
def PathMap.keys (map : PathMap Value) : List Bytes := map.entries.map Prod.fst

def PathMap.get (map : PathMap Value) (k : PathKey) : Option Value :=
  (findKey entryKey k map.entries).map Prod.snd

/-- `BTreeSet<PathBuf>::insert`: a path that is there stays as it is. -/
def insertPath (path : Bytes) (paths : List Bytes) : List Bytes :=
  insertBy pathKey (fun old _ => old) path paths

theorem sorted_insert_path (path : Bytes) (paths : List Bytes) (sorted : Sorted pathKey paths) :
    Sorted pathKey (insertPath path paths) :=
  sorted_insert (fun _ _ _ => rfl) path paths sorted

theorem keys_insert_path (path : Bytes) (paths : List Bytes) (k : PathKey) :
    k ∈ (insertPath path paths).map pathKey ↔ k = pathKey path ∨ k ∈ paths.map pathKey :=
  keys_insert (fun _ _ _ => rfl) path paths k

theorem get_of_mem (map : PathMap Value) (path : Bytes) (value : Value)
    (member : (path, value) ∈ map.entries) : map.get (pathKey path) = some value := by
  have found := find_of_mem map.sorted (path, value) member
  change findKey entryKey (pathKey path) map.entries = _ at found
  rw [PathMap.get, found]
  rfl

theorem mem_of_get (map : PathMap Value) (k : PathKey) (value : Value)
    (found : map.get k = some value) : ∃ path, (path, value) ∈ map.entries ∧ pathKey path = k := by
  obtain ⟨⟨path, other⟩, located, rfl⟩ := Option.map_eq_some_iff.mp found
  obtain ⟨member, same⟩ := key_of_find located
  exact ⟨path, member, same⟩

/-- A path that comes after all that are there is added at the end. -/
theorem insert_after (map : PathMap Value) (path : Bytes) (value : Value)
    (last : ∀ other ∈ map.keys, pathKey other < pathKey path) :
    (map.insert path value).entries = map.entries ++ [(path, value)] := by
  apply insert_last
  intro entry member
  exact last entry.1 (List.mem_map_of_mem member)

/-! ## Graphs of paths -/

abbrev PathGraph := PathMap (List Bytes)

/-- What a path leads to; nothing where it is no key. -/
def PathGraph.next (graph : PathGraph) (k : PathKey) : List Bytes := (graph.get k).getD []

/-- Every path the graph mentions. -/
def PathGraph.mentions (graph : PathGraph) : List Bytes :=
  graph.entries.flatMap fun entry => entry.1 :: entry.2

theorem next_of_mem (graph : PathGraph) (path : Bytes) (paths : List Bytes)
    (member : (path, paths) ∈ graph.entries) : graph.next (pathKey path) = paths := by
  rw [PathGraph.next, get_of_mem graph path paths member]
  rfl

theorem next_mentioned (graph : PathGraph) (k : PathKey) (path : Bytes)
    (leads : path ∈ graph.next k) : path ∈ graph.mentions ∧ k ∈ graph.keys.map pathKey := by
  cases found : graph.get k with
  | none =>
      rw [PathGraph.next, found] at leads
      cases leads
  | some paths =>
      rw [PathGraph.next, found] at leads
      obtain ⟨source, member, rfl⟩ := mem_of_get graph k paths found
      exact ⟨List.mem_flatMap.mpr ⟨_, member, List.mem_cons_of_mem _ leads⟩,
        List.mem_map_of_mem (List.mem_map_of_mem member)⟩

theorem keys_mentioned (graph : PathGraph) (path : Bytes) (key : path ∈ graph.keys) :
    path ∈ graph.mentions := by
  obtain ⟨entry, member, rfl⟩ := List.mem_map.mp key
  exact List.mem_flatMap.mpr ⟨entry, member, List.mem_cons_self⟩

end HorizonOs.Lib.PathOrder
