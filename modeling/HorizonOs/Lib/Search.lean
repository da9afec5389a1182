import HorizonOs.Lib.Programs
import Mathlib.Logic.Relation
import Mathlib.Data.List.Nodup

/-!
# Searching a graph from a stack

A search pops a node, stops if it was looked for, passes over it if it was seen
and otherwise asks for the nodes it leads to and pushes them. `Frontier` is its
invariant over a graph that stands still: what is seen or stacked is reached,
and every edge that leaves the seen nodes ends in one of the two.
-/

namespace HorizonOs.Lib.Search

open HorizonOs.Lib.Programs

set_option autoImplicit false

variable {Node : Type}

/-! ## Reachability -/

/-- A path leads from one node to another. -/
def Reaches (edges : Node → List Node) : Node → Node → Prop :=
  Relation.ReflTransGen fun node next => next ∈ edges node

def ReachedFrom (edges : Node → List Node) (roots : List Node) (node : Node) : Prop :=
  ∃ root ∈ roots, Reaches edges root node

theorem Reaches.refl (edges : Node → List Node) (node : Node) : Reaches edges node node :=
  Relation.ReflTransGen.refl

theorem Reaches.edge {edges : Node → List Node} {first node next : Node}
    (path : Reaches edges first node) (leads : next ∈ edges node) : Reaches edges first next :=
  Relation.ReflTransGen.tail path leads

theorem Reaches.trans {edges : Node → List Node} {first middle last : Node}
    (near : Reaches edges first middle) (far : Reaches edges middle last) :
    Reaches edges first last :=
  Relation.ReflTransGen.trans near far

/-- A property that every edge hands on holds of all that is reached. -/
theorem Reaches.carries {edges : Node → List Node} {property : Node → Prop} {first last : Node}
    (path : Reaches edges first last)
    (handed : ∀ node, property node → ∀ next ∈ edges node, property next)
    (holds : property first) : property last := by
  induction path with
  | refl => exact holds
  | tail _ leads ih => exact handed _ ih _ leads

/-- Paths survive where the edges of every node they pass do. -/
theorem Reaches.imp {edges others : Node → List Node} {first last : Node}
    (path : Reaches edges first last)
    (kept : ∀ node, Reaches edges first node → edges node ⊆ others node) :
    Reaches others first last := by
  induction path with
  | refl => exact Reaches.refl others first
  | tail before leads ih => exact ih.edge (kept _ before leads)

theorem ReachedFrom.root {edges : Node → List Node} {roots : List Node} {root : Node}
    (member : root ∈ roots) : ReachedFrom edges roots root :=
  ⟨root, member, Reaches.refl edges root⟩

theorem ReachedFrom.edge {edges : Node → List Node} {roots : List Node} {node next : Node}
    (reached : ReachedFrom edges roots node) (leads : next ∈ edges node) :
    ReachedFrom edges roots next := by
  obtain ⟨root, member, path⟩ := reached
  exact ⟨root, member, path.edge leads⟩

theorem ReachedFrom.carries {edges : Node → List Node} {roots : List Node}
    {property : Node → Prop} {last : Node} (reached : ReachedFrom edges roots last)
    (handed : ∀ node, property node → ∀ next ∈ edges node, property next)
    (holds : ∀ root ∈ roots, property root) : property last := by
  obtain ⟨root, member, path⟩ := reached
  exact path.carries handed (holds root member)

/-! ## The search -/

section Explore

variable {Call : Type} {Reply : Call → Type} {ε σ : Type} [DecidableEq Node]

/-- One pop after the other, until a node has to be visited. -/
def popFrom (stop : Node → Bool) (visit : List Node → Node → Program Call Reply (List Node))
    (again : List Node → List Node → Program Call Reply (Bool × List Node)) (seen : List Node) :
    List Node → Program Call Reply (Bool × List Node)
  | [] => .done (false, seen)
  | node :: rest =>
      if stop node then .done (true, seen)
      else if node ∈ seen then popFrom stop visit again seen rest
      else do
        let found ← visit (node :: seen) node
        -- pushed in order, so the last of them is popped first
        again (node :: seen) (found.reverse ++ rest)

/-- Search until the stack is empty: whether it was stopped, and what it saw.
It visits no node twice, so as much fuel as there are nodes is never used up. -/
def explore (stop : Node → Bool) (visit : List Node → Node → Program Call Reply (List Node)) :
    Nat → List Node → List Node → Program Call Reply (Bool × List Node)
  | 0, seen, _ => .done (false, seen)
  | fuel + 1, seen, stack => popFrom stop visit (explore stop visit fuel) seen stack

/-- The rule for a search: an invariant of what is seen and what is stacked. -/
theorem safe_explore {terms : Terms Call Reply ε σ} {post : Bool × List Node → σ → Prop}
    (stop : Node → Bool) (visit : List Node → Node → Program Call Reply (List Node))
    (bound : Nat) (few : ∀ nodes : List Node, nodes.Nodup → nodes.length ≤ bound)
    (kept : List Node → List Node → σ → Prop)
    (ends : ∀ seen state later, kept seen [] state → terms.rely state later →
      post (false, seen) later)
    (stops : ∀ seen node rest state later, kept seen (node :: rest) state → stop node = true →
      terms.rely state later → post (true, seen) later)
    (passes : ∀ seen node rest state, kept seen (node :: rest) state → node ∈ seen →
      kept seen rest state)
    (visits : ∀ seen node rest state, kept seen (node :: rest) state → stop node = false →
      node ∉ seen → (visit (node :: seen) node).Safe terms
        (fun found later => kept (node :: seen) (found.reverse ++ rest) later) state)
    (fuel : Nat) (seen stack : List Node) (state : σ) (distinct : seen.Nodup)
    (enough : bound < fuel + seen.length) (holds : kept seen stack state) :
    (explore stop visit fuel seen stack).Safe terms post state := by
  induction fuel generalizing seen stack state with
  | zero =>
      have full := few seen distinct
      omega
  | succ fuel ih =>
      rw [explore]
      induction stack with
      | nil => exact fun later moved => ends seen state later holds moved
      | cons node rest pop =>
          rw [popFrom]
          split
          case isTrue stopped =>
            exact fun later moved => stops seen node rest state later holds stopped moved
          case isFalse goes =>
            split
            case isTrue old => exact pop (passes seen node rest state holds old)
            case isFalse new =>
              apply Program.Safe.bind
              apply (visits seen node rest state holds (Bool.eq_false_iff.mpr goes) new).imp
              intro found later after
              apply ih (node :: seen) (found.reverse ++ rest) later (List.nodup_cons.mpr ⟨new, distinct⟩)
              · rw [List.length_cons]
                omega
              · exact after

/-- A search makes no calls but those of its visits. -/
theorem only_explore {kind : Call → Prop} (stop : Node → Bool)
    (visit : List Node → Node → Program Call Reply (List Node))
    (each : ∀ seen node, (visit seen node).Only kind) (fuel : Nat) (seen stack : List Node) :
    (explore stop visit fuel seen stack).Only kind := by
  induction fuel generalizing seen stack with
  | zero => exact trivial
  | succ fuel ih =>
      rw [explore]
      induction stack with
      | nil => exact trivial
      | cons node rest pop =>
          rw [popFrom]
          split
          case isTrue => exact trivial
          case isFalse =>
            split
            case isTrue => exact pop
            case isFalse => exact (each (node :: seen) node).bind fun found => ih _ _

end Explore

/-! ## The frontier -/

/-- Halfway through a search of a graph from its roots. -/
structure Frontier (edges : Node → List Node) (roots seen stack : List Node) : Prop where
  stacked : ∀ node ∈ stack, ReachedFrom edges roots node
  reached : ∀ node ∈ seen, ReachedFrom edges roots node
  begun : ∀ root ∈ roots, root ∈ seen ∨ root ∈ stack
  handed : ∀ node ∈ seen, ∀ next ∈ edges node, next ∈ seen ∨ next ∈ stack

variable {edges : Node → List Node} {roots seen rest : List Node} {node : Node}

theorem Frontier.start (edges : Node → List Node) (roots : List Node) :
    Frontier edges roots [] roots where
  stacked _ member := ReachedFrom.root member
  reached _ member := absurd member List.not_mem_nil
  begun _ member := .inr member
  handed _ member := absurd member List.not_mem_nil

theorem Frontier.pass (frontier : Frontier edges roots seen (node :: rest)) (old : node ∈ seen) :
    Frontier edges roots seen rest where
  stacked other member := frontier.stacked other (List.mem_cons_of_mem _ member)
  reached := frontier.reached
  begun root member := by
    rcases frontier.begun root member with seen | stacked
    · exact .inl seen
    · rcases List.mem_cons.mp stacked with rfl | later
      · exact .inl old
      · exact .inr later
  handed other member next leads := by
    rcases frontier.handed other member next leads with seen | stacked
    · exact .inl seen
    · rcases List.mem_cons.mp stacked with rfl | later
      · exact .inl old
      · exact .inr later

/-- A visit pushes every edge but those that lead to what was seen. -/
theorem Frontier.visit (frontier : Frontier edges roots seen (node :: rest)) (found : List Node)
    (sound : ∀ next ∈ found, next ∈ edges node)
    (complete : ∀ next ∈ edges node, next ∈ node :: seen ∨ next ∈ found) :
    Frontier edges roots (node :: seen) (found.reverse ++ rest) := by
  have here := frontier.stacked node List.mem_cons_self
  have moved : ∀ next, next ∈ seen ∨ next ∈ node :: rest →
      next ∈ node :: seen ∨ next ∈ found.reverse ++ rest := by
    rintro next (old | ahead)
    · exact .inl (List.mem_cons_of_mem _ old)
    · rcases List.mem_cons.mp ahead with rfl | later
      · exact .inl List.mem_cons_self
      · exact .inr (List.mem_append_right _ later)
  constructor
  · intro next member
    rcases List.mem_append.mp member with new | later
    · exact here.edge (sound next (List.mem_reverse.mp new))
    · exact frontier.stacked next (List.mem_cons_of_mem _ later)
  · intro other member
    rcases List.mem_cons.mp member with rfl | old
    · exact here
    · exact frontier.reached other old
  · exact fun root member => moved root (frontier.begun root member)
  · intro other member next leads
    rcases List.mem_cons.mp member with rfl | old
    · rcases complete next leads with seen | new
      · exact .inl seen
      · exact .inr (List.mem_append_left _ (List.mem_reverse.mpr new))
    · exact moved next (frontier.handed other old next leads)

/-- It does not matter in which order nodes were seen. -/
theorem Frontier.reorder {stack others : List Node} (frontier : Frontier edges roots seen stack)
    (same : ∀ node, node ∈ others ↔ node ∈ seen) : Frontier edges roots others stack where
  stacked := frontier.stacked
  reached node member := frontier.reached node ((same node).mp member)
  begun root member := (frontier.begun root member).imp_left (same root).mpr
  handed node member next leads :=
    (frontier.handed node ((same node).mp member) next leads).imp_left (same next).mpr

/-- Once the stack is empty the seen nodes are the reached ones. -/
theorem Frontier.finish (frontier : Frontier edges roots seen []) (node : Node) :
    node ∈ seen ↔ ReachedFrom edges roots node := by
  constructor
  · exact frontier.reached node
  · intro reached
    apply reached.carries
    · intro other member next leads
      exact (frontier.handed other member next leads).resolve_right List.not_mem_nil
    · intro root member
      exact (frontier.begun root member).resolve_right List.not_mem_nil

/-- The frontier only looks at the edges of what was seen. -/
theorem Frontier.move {others : Node → List Node} {stack : List Node}
    (frontier : Frontier edges roots seen stack)
    (more : ∀ node, edges node ⊆ others node)
    (fixed : ∀ node ∈ seen, others node = edges node) : Frontier others roots seen stack where
  stacked node member := by
    obtain ⟨root, start, path⟩ := frontier.stacked node member
    exact ⟨root, start, path.imp fun other _ => more other⟩
  reached node member := by
    obtain ⟨root, start, path⟩ := frontier.reached node member
    exact ⟨root, start, path.imp fun other _ => more other⟩
  begun := frontier.begun
  handed node member next leads := by
    rw [fixed node member] at leads
    exact frontier.handed node member next leads

end HorizonOs.Lib.Search
