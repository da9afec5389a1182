import HorizonOs.Lib.Search

/-!
# Listing a graph in post-order

A depth-first walk that marks a node when it enters it and lists it when it
leaves it. Nodes are told apart by a key, and the edges belong to the key. The
walk ends on every graph; it lists what it reaches once each, and a node comes
after every node it leads to that does not lead back.
-/

namespace HorizonOs.Lib.DepthFirst

open HorizonOs.Lib.Search

set_option autoImplicit false

variable {Node Key : Type}

/-- What the walk has entered and what it has listed. -/
structure Trail (Node Key : Type) where
  done : List Key
  order : List Node

/-- Visit a node; none when the fuel runs out. -/
def visit [DecidableEq Key] (key : Node → Key) (edges : Key → List Node) :
    Nat → Trail Node Key → Node → Option (Trail Node Key)
  | 0, _, _ => none
  | fuel + 1, trail, node =>
      if key node ∈ trail.done then some trail
      else do
        let after ← (edges (key node)).foldlM (visit key edges fuel)
          { trail with done := key node :: trail.done }
        some { after with order := after.order ++ [node] }

/-- The post-order of all that the roots lead to. -/
def postOrder [DecidableEq Key] (key : Node → Key) (edges : Key → List Node) (fuel : Nat) (roots : List Node) :
    Option (List Node) :=
  (roots.foldlM (visit key edges fuel) ⟨[], []⟩).map Trail.order

/-- The graph between the keys. -/
def keyEdges (key : Node → Key) (edges : Key → List Node) (k : Key) : List Key :=
  (edges k).map key

/-! ## What a visit does -/

variable {key : Node → Key} {edges : Key → List Node}

/-- From one trail to another, these nodes were listed: fresh ones, each once, all reached
from the roots, and each behind what it leads to, unless that was done before or leads
back to it. -/
structure Lists (key : Node → Key) (edges : Key → List Node) (roots : List Key)
    (before after : Trail Node Key) (listed : List Node) : Prop where
  order : after.order = before.order ++ listed
  done : ∀ k, k ∈ after.done ↔ k ∈ before.done ∨ k ∈ listed.map key
  distinct : (listed.map key).Nodup
  fresh : ∀ k ∈ listed.map key, k ∉ before.done
  covers : ∀ k ∈ roots, k ∈ after.done
  reached : ∀ k ∈ listed.map key, ReachedFrom (keyEdges key edges) roots k
  behind : ∀ first node rest, listed = first ++ node :: rest →
    ∀ k ∈ keyEdges key edges (key node),
      k ∈ before.done ∨ k ∈ first.map key ∨ Reaches (keyEdges key edges) k (key node)
  closed : ∀ node ∈ listed, ∀ k ∈ keyEdges key edges (key node), k ∈ after.done

/-- Nothing is listed where the roots are done. -/
theorem Lists.none (roots : List Key) (trail : Trail Node Key)
    (old : ∀ k ∈ roots, k ∈ trail.done) : Lists key edges roots trail trail [] where
  order := (List.append_nil _).symm
  done k := by simp
  distinct := List.nodup_nil
  fresh k member := absurd member List.not_mem_nil
  covers := old
  reached k member := absurd member List.not_mem_nil
  behind first node rest same := by simp at same
  closed node member := absurd member List.not_mem_nil

theorem reached_from_append_left {graph : Key → List Key} {first second : List Key} {k : Key}
    (reached : ReachedFrom graph first k) : ReachedFrom graph (first ++ second) k := by
  obtain ⟨root, member, path⟩ := reached
  exact ⟨root, List.mem_append_left _ member, path⟩

theorem reached_from_append_right {graph : Key → List Key} {first second : List Key} {k : Key}
    (reached : ReachedFrom graph second k) : ReachedFrom graph (first ++ second) k := by
  obtain ⟨root, member, path⟩ := reached
  exact ⟨root, List.mem_append_right _ member, path⟩

/-- One listing after another. -/
theorem Lists.append {first second : List Key} {before middle after : Trail Node Key}
    {left right : List Node} (near : Lists key edges first before middle left)
    (far : Lists key edges second middle after right) :
    Lists key edges (first ++ second) before after (left ++ right) where
  order := by rw [far.order, near.order, List.append_assoc]
  done k := by rw [far.done, near.done, List.map_append, List.mem_append, or_assoc]
  distinct := by
    rw [List.map_append]
    apply List.Nodup.append near.distinct far.distinct
    intro k inLeft inRight
    exact far.fresh k inRight ((near.done k).mpr (.inr inLeft))
  fresh k member := by
    rw [List.map_append, List.mem_append] at member
    rcases member with inLeft | inRight
    · exact near.fresh k inLeft
    · exact fun old => far.fresh k inRight ((near.done k).mpr (.inl old))
  covers k member := by
    rcases List.mem_append.mp member with inFirst | inSecond
    · exact (far.done k).mpr (.inl (near.covers k inFirst))
    · exact far.covers k inSecond
  reached k member := by
    rw [List.map_append, List.mem_append] at member
    rcases member with inLeft | inRight
    · exact reached_from_append_left (near.reached k inLeft)
    · exact reached_from_append_right (far.reached k inRight)
  behind ahead node rest same k leads := by
    rcases List.append_eq_append_iff.mp same with ⟨others, rfl, there⟩ | ⟨others, here, there⟩
    · rcases far.behind others node rest there k leads with old | earlier | back
      · rcases (near.done k).mp old with older | inLeft
        · exact .inl older
        · rw [List.map_append]
          exact .inr (.inl (List.mem_append_left _ inLeft))
      · rw [List.map_append]
        exact .inr (.inl (List.mem_append_right _ earlier))
      · exact .inr (.inr back)
    · cases others with
      | nil =>
          rw [List.append_nil] at here
          rcases far.behind [] node rest (by simpa using there.symm) k leads with old | none | back
          · rcases (near.done k).mp old with older | inLeft
            · exact .inl older
            · rw [← here]
              exact .inr (.inl inLeft)
          · exact absurd none List.not_mem_nil
          · exact .inr (.inr back)
      | cons same others =>
          obtain ⟨rfl, -⟩ := List.cons.inj there
          exact near.behind ahead node others here k leads
  closed node member k leads := by
    rcases List.mem_append.mp member with inLeft | inRight
    · exact (far.done k).mpr (.inl (near.closed node inLeft k leads))
    · exact far.closed node inRight k leads

/-- A node is listed behind what its edges list. -/
theorem Lists.node {before after : Trail Node Key} {node : Node} {listed : List Node}
    (new : key node ∉ before.done)
    (below : Lists key edges (keyEdges key edges (key node))
      { before with done := key node :: before.done } after listed) :
    Lists key edges [key node] before { after with order := after.order ++ [node] }
      (listed ++ [node]) := by
  have entered : ∀ k, k ∈ after.done ↔ k = key node ∨ k ∈ before.done ∨ k ∈ listed.map key := by
    intro k
    rw [below.done, List.mem_cons, or_assoc]
  have deeper : ∀ k, ReachedFrom (keyEdges key edges) (keyEdges key edges (key node)) k →
      Reaches (keyEdges key edges) (key node) k := by
    rintro k ⟨child, leads, path⟩
    exact ((Reaches.refl _ _).edge leads).trans path
  constructor
  · change after.order ++ [node] = _
    rw [below.order, List.append_assoc]
  · intro k
    rw [entered, List.map_append, List.mem_append, List.map_singleton, List.mem_singleton]
    tauto
  · rw [List.map_append, List.map_singleton]
    apply List.Nodup.append below.distinct (List.nodup_singleton _)
    intro k inListed here
    exact below.fresh k inListed (List.mem_singleton.mp here ▸ List.mem_cons_self)
  · intro k member
    rw [List.map_append, List.mem_append, List.map_singleton, List.mem_singleton] at member
    rcases member with inListed | rfl
    · exact fun old => below.fresh k inListed (List.mem_cons_of_mem _ old)
    · exact new
  · intro k member
    rw [List.mem_singleton.mp member]
    exact (entered _).mpr (.inl rfl)
  · intro k member
    refine ⟨key node, List.mem_singleton_self _, ?_⟩
    rw [List.map_append, List.mem_append, List.map_singleton, List.mem_singleton] at member
    rcases member with inListed | rfl
    · exact deeper k (below.reached k inListed)
    · exact Reaches.refl _ _
  · intro first other rest same k leads
    rcases List.eq_nil_or_concat rest with rfl | ⟨rest, last, rfl⟩
    · obtain ⟨rfl, here⟩ := List.append_inj' same rfl
      obtain rfl : node = other := List.cons.inj here |>.1
      -- the node itself: its children are done by now
      rcases (entered k).mp (below.covers k leads) with rfl | old | inListed
      · exact .inr (.inr (Reaches.refl _ _))
      · exact .inl old
      · exact .inr (.inl inListed)
    · have inner : listed = first ++ other :: rest := by
        rw [List.concat_eq_append, ← List.cons_append, ← List.append_assoc] at same
        exact (List.append_inj' same rfl).1
      rcases below.behind first other rest inner k leads with old | earlier | back
      · rcases List.mem_cons.mp old with rfl | older
        · have inListed : key other ∈ listed.map key := by
            rw [inner]
            simp
          exact .inr (.inr (deeper _ (below.reached _ inListed)))
        · exact .inl older
      · exact .inr (.inl earlier)
      · exact .inr (.inr back)
  · intro other member k leads
    rcases List.mem_append.mp member with inListed | here
    · exact below.closed other inListed k leads
    · rw [List.mem_singleton.mp here] at leads
      exact below.covers k leads

/-- Whatever a visit does from one trail to another, visits one after the other do. -/
theorem lists_fold (step : Trail Node Key → Node → Option (Trail Node Key))
    (each : ∀ before node after, step before node = some after →
      ∃ listed, Lists key edges [key node] before after listed)
    (nodes : List Node) (before after : Trail Node Key)
    (folded : nodes.foldlM step before = some after) :
    ∃ listed, Lists key edges (nodes.map key) before after listed := by
  induction nodes generalizing before with
  | nil =>
      cases folded
      exact ⟨[], Lists.none [] _ fun k member => absurd member List.not_mem_nil⟩
  | cons node rest ih =>
      rw [List.foldlM_cons] at folded
      obtain ⟨middle, first, others⟩ := Option.bind_eq_some_iff.mp folded
      obtain ⟨left, near⟩ := each before node middle first
      obtain ⟨right, far⟩ := ih middle others
      exact ⟨left ++ right, near.append far⟩

theorem lists_visit [DecidableEq Key] (fuel : Nat) (before : Trail Node Key) (node : Node) (after : Trail Node Key)
    (visited : visit key edges fuel before node = some after) :
    ∃ listed, Lists key edges [key node] before after listed := by
  induction fuel generalizing before node after with
  | zero => cases visited
  | succ fuel ih =>
      rw [visit] at visited
      split at visited
      case isTrue old =>
        cases visited
        refine ⟨[], Lists.none [key node] before fun k member => ?_⟩
        rw [List.mem_singleton.mp member]
        exact old
      case isFalse new =>
        obtain ⟨inner, folded, ended⟩ := Option.bind_eq_some_iff.mp visited
        cases ended
        obtain ⟨listed, below⟩ := lists_fold (visit key edges fuel) ih (edges (key node)) _ inner
          folded
        exact ⟨listed ++ [node], Lists.node new below⟩

/-! ## Every visit ends -/

/-- Visits only add to what is done. -/
theorem Lists.grows {roots : List Key} {before after : Trail Node Key} {listed : List Node}
    (lists : Lists key edges roots before after listed) : before.done ⊆ after.done :=
  fun k old => (lists.done k).mpr (.inl old)

section Ends

variable [DecidableEq Key]

/-- How many of these keys are not done. -/
def left (keys done : List Key) : Nat := (keys.filter fun k => k ∉ done).length

theorem left_mono (keys : List Key) {before after : List Key} (more : before ⊆ after) :
    left keys after ≤ left keys before := by
  apply List.Sublist.length_le
  apply List.monotone_filter_right
  intro k undone
  simp only [decide_eq_true_eq] at undone ⊢
  exact fun old => undone (more old)

theorem left_entered (keys done : List Key) (k : Key) (inside : k ∈ keys)
    (new : k ∉ done) : left keys (k :: done) < left keys done := by
  have narrower : (keys.filter fun other => other ∉ k :: done) =
      (keys.filter fun other => other ∉ done).filter fun other => other ≠ k := by
    rw [List.filter_filter]
    apply List.filter_congr
    intro other _
    simp [not_or]
  rw [left, narrower, left]
  apply List.length_filter_lt_length_iff_exists.mpr
  exact ⟨k, List.mem_filter.mpr ⟨inside, by simpa using new⟩, by simp⟩

/-- With more fuel than there are keys left in a closed set of them, a visit ends. -/
theorem visit_ends (keys : List Key)
    (closed : ∀ k ∈ keys, ∀ next ∈ keyEdges key edges k, next ∈ keys)
    (fuel : Nat) (trail : Trail Node Key) (node : Node) (inside : key node ∈ keys)
    (enough : left keys trail.done < fuel) :
    ∃ after, visit key edges fuel trail node = some after := by
  induction fuel generalizing trail node with
  | zero => omega
  | succ fuel ih =>
      rw [visit]
      split
      case isTrue old => exact ⟨trail, rfl⟩
      case isFalse new =>
        have fewer := left_entered keys trail.done (key node) inside new
        have children : ∀ (nodes : List Node) (before : Trail Node Key),
            (∀ child ∈ nodes, key child ∈ keys) → left keys before.done < fuel →
            ∃ after, nodes.foldlM (visit key edges fuel) before = some after := by
          intro nodes
          induction nodes with
          | nil => exact fun before _ _ => ⟨before, rfl⟩
          | cons child rest following =>
              intro before within room
              obtain ⟨middle, visited⟩ := ih before child (within child List.mem_cons_self) room
              obtain ⟨listed, lists⟩ := lists_visit fuel before child middle visited
              have less := left_mono keys lists.grows
              obtain ⟨after, others⟩ := following middle
                (fun other member => within other (List.mem_cons_of_mem _ member)) (by omega)
              refine ⟨after, ?_⟩
              rw [List.foldlM_cons, visited]
              exact others
        obtain ⟨after, folded⟩ := children (edges (key node))
          { trail with done := key node :: trail.done }
          (fun child member => closed _ inside _ (List.mem_map_of_mem member))
          (show left keys (key node :: trail.done) < fuel by omega)
        exact ⟨{ after with order := after.order ++ [node] }, by rw [folded]; rfl⟩

theorem post_order_ends (keys : List Key)
    (closed : ∀ k ∈ keys, ∀ next ∈ keyEdges key edges k, next ∈ keys)
    (fuel : Nat) (enough : keys.length < fuel) (roots : List Node)
    (inside : ∀ root ∈ roots, key root ∈ keys) :
    ∃ order, postOrder key edges fuel roots = some order := by
  have visits : ∀ (nodes : List Node) (before : Trail Node Key),
      (∀ node ∈ nodes, key node ∈ keys) →
      ∃ after, nodes.foldlM (visit key edges fuel) before = some after := by
    intro nodes
    induction nodes with
    | nil => exact fun before _ => ⟨before, rfl⟩
    | cons node rest ih =>
        intro before within
        have room : left keys before.done < fuel :=
          Nat.lt_of_le_of_lt (List.length_filter_le _ _) enough
        obtain ⟨middle, visited⟩ :=
          visit_ends keys closed fuel before node (within node List.mem_cons_self) room
        obtain ⟨after, others⟩ := ih middle fun other member =>
          within other (List.mem_cons_of_mem _ member)
        exact ⟨after, by rw [List.foldlM_cons, visited]; exact others⟩
  obtain ⟨after, folded⟩ := visits roots ⟨[], []⟩ inside
  exact ⟨after.order, by rw [postOrder, folded]; rfl⟩

/-! ## What is listed -/

/-- The walk lists exactly what the roots lead to, each key once, and a node after all it
leads to that does not lead back to it. -/
theorem post_order_lists (fuel : Nat) (roots order : List Node)
    (listed : postOrder key edges fuel roots = some order) :
    (order.map key).Nodup ∧
      (∀ k, k ∈ order.map key ↔ ReachedFrom (keyEdges key edges) (roots.map key) k) ∧
      ∀ first node rest, order = first ++ node :: rest →
        ∀ k ∈ keyEdges key edges (key node),
          k ∈ first.map key ∨ Reaches (keyEdges key edges) k (key node) := by
  obtain ⟨after, folded, rfl⟩ := Option.map_eq_some_iff.mp listed
  obtain ⟨nodes, lists⟩ := lists_fold (visit key edges fuel) (lists_visit fuel) roots _ after folded
  have order : after.order = nodes := by
    rw [lists.order, List.nil_append]
  have done : ∀ k, k ∈ after.done ↔ k ∈ nodes.map key := by
    intro k
    rw [lists.done, or_iff_right List.not_mem_nil]
  rw [order]
  refine ⟨lists.distinct, fun k => ⟨lists.reached k, fun reached => ?_⟩, ?_⟩
  · apply reached.carries
    · intro other member next leads
      obtain ⟨node, inside, rfl⟩ := List.mem_map.mp member
      exact (done next).mp (lists.closed node inside next leads)
    · exact fun root member => (done root).mp (lists.covers root member)
  · intro first node rest same k leads
    exact (lists.behind first node rest same k leads).resolve_left List.not_mem_nil

/-- On a graph without cycles every node comes after all it leads to. -/
theorem post_order_acyclic (fuel : Nat) (roots order : List Node)
    (listed : postOrder key edges fuel roots = some order)
    (acyclic : ∀ k, ¬Relation.TransGen (fun k next => next ∈ keyEdges key edges k) k k)
    (first : List Node) (node : Node) (rest : List Node) (same : order = first ++ node :: rest)
    (k : Key) (leads : k ∈ keyEdges key edges (key node)) : k ∈ first.map key := by
  rcases (post_order_lists fuel roots order listed).2.2 first node rest same k leads with
    earlier | back
  · exact earlier
  · exact absurd (Relation.TransGen.head' leads back) (acyclic (key node))

end Ends

end HorizonOs.Lib.DepthFirst
