import HorizonOs.Init.Modules
import HorizonOs.Keybuild.Modules
import Mathlib.Order.Bounds.Defs

/-!
# From the modules a base asks for to the order they are loaded in

The closure is the least set that has the requested files and all they depend on; its file
reads back as its part of the graph; and the walk over that lists each of its modules once,
after the modules it depends on.
-/

namespace HorizonOs.Keybuild

open HorizonOs.Lib.ByteCodec HorizonOs.Lib.Text HorizonOs.Lib.PathOrder HorizonOs.Lib.Words
open HorizonOs.Lib.Search HorizonOs.Lib.DepthFirst HorizonOs.Lib.SortedList
open HorizonOs.Init

set_option autoImplicit false

/-! ## The closure -/

/-- The graph between the keys of paths. -/
abbrev moduleEdges (deps : PathGraph) : PathKey → List PathKey := keyEdges pathKey deps.next

theorem edges_mentioned (deps : PathGraph) (k next : PathKey) (leads : next ∈ moduleEdges deps k) :
    next ∈ deps.mentions.map pathKey := by
  obtain ⟨path, inside, rfl⟩ := List.mem_map.mp leads
  exact List.mem_map_of_mem (next_mentioned deps k path inside).1

section Closure

variable {deps : PathGraph} {roots : List PathKey}

/-- A module that is not in the closure is added to it, and its dependencies are pushed. -/
theorem frontier_add {closure stack : List Bytes} {m : Bytes}
    (frontier : Frontier (moduleEdges deps) roots (closure.map pathKey)
      ((m :: stack).map pathKey)) :
    Frontier (moduleEdges deps) roots ((insertPath m closure).map pathKey)
      ((((deps.next (pathKey m)).filter fun d =>
        pathKey d ∉ (insertPath m closure).map pathKey).reverse ++ stack).map pathKey) := by
  set pushed := (deps.next (pathKey m)).filter fun d =>
    pathKey d ∉ (insertPath m closure).map pathKey with pushedDef
  have grown : ∀ k, k ∈ (insertPath m closure).map pathKey ↔
      k ∈ pathKey m :: closure.map pathKey := by
    intro k
    rw [keys_insert_path, List.mem_cons]
  have visited := frontier.visit (pushed.map pathKey) (by
    intro next member
    obtain ⟨path, inside, rfl⟩ := List.mem_map.mp member
    exact List.mem_map_of_mem (List.mem_of_mem_filter inside)) (by
    intro next leads
    obtain ⟨path, inside, rfl⟩ := List.mem_map.mp leads
    by_cases old : pathKey path ∈ (insertPath m closure).map pathKey
    · exact .inl ((grown _).mp old)
    · right
      apply List.mem_map_of_mem
      rw [pushedDef]
      exact List.mem_filter.mpr ⟨inside, by simpa using old⟩)
  rw [List.map_append, List.map_reverse]
  exact visited.reorder grown

/-- Where the loop ends, the closure is sorted and nothing is left on the stack. -/
theorem close_modules_frontier (fuel : Nat) (closure stack result : List Bytes)
    (sorted : Sorted pathKey closure)
    (frontier : Frontier (moduleEdges deps) roots (closure.map pathKey) (stack.map pathKey))
    (ended : closeModules deps fuel closure stack = some result) :
    Sorted pathKey result ∧ Frontier (moduleEdges deps) roots (result.map pathKey) [] := by
  induction fuel generalizing closure stack with
  | zero => cases ended
  | succ fuel ih =>
      rw [closeModules] at ended
      induction stack with
      | nil =>
          cases ended
          exact ⟨sorted, frontier⟩
      | cons m stack pop =>
          rw [popModule] at ended
          split at ended
          case isTrue old => exact pop (frontier.pass old) ended
          case isFalse new =>
            exact ih _ _ (sorted_insert_path m closure sorted) (frontier_add frontier) ended

/-- With more fuel than there are modules left to add, the loop ends. -/
theorem close_modules_ends (fuel : Nat) (closure stack : List Bytes)
    (within : ∀ k ∈ stack.map pathKey, k ∈ deps.mentions.map pathKey)
    (enough : left (deps.mentions.map pathKey) (closure.map pathKey) < fuel) :
    ∃ result, closeModules deps fuel closure stack = some result := by
  induction fuel generalizing closure stack with
  | zero => omega
  | succ fuel ih =>
      rw [closeModules]
      induction stack with
      | nil => exact ⟨closure, rfl⟩
      | cons m stack pop =>
          obtain ⟨here, others⟩ := List.forall_mem_cons.mp within
          rw [popModule]
          split
          case isTrue => exact pop others
          case isFalse new =>
            apply ih
            · intro k member
              rw [List.map_append, List.mem_append] at member
              rcases member with pushed | later
              · obtain ⟨d, inside, rfl⟩ := List.mem_map.mp pushed
                have leads := List.mem_of_mem_filter (List.mem_reverse.mp inside)
                exact edges_mentioned deps (pathKey m) _ (List.mem_map_of_mem leads)
              · exact others k later
            · have fewer := left_entered _ (closure.map pathKey) (pathKey m) here new
              have more : pathKey m :: closure.map pathKey ⊆
                  (insertPath m closure).map pathKey := by
                intro k member
                exact (keys_insert_path m closure k).mpr (List.mem_cons.mp member)
              have less := left_mono (deps.mentions.map pathKey) more
              omega

end Closure

/-- A set of modules with the file of every requested name and, with each module, all that
it depends on. -/
def Demanded (deps : PathGraph) (requested : List String) (modules : Set PathKey) : Prop :=
  (∀ name ∈ requested, ∀ path, named deps name = some path → pathKey path ∈ modules) ∧
    ∀ k ∈ modules, ∀ d ∈ deps.next k, pathKey d ∈ modules

/-- The files that the requested names stand for. -/
def filesOf (deps : PathGraph) (requested : List String) : List Bytes :=
  requested.filterMap (named deps)

theorem reached_least (deps : PathGraph) (requested : List String) :
    IsLeast {modules | Demanded deps requested modules}
      {k | ReachedFrom (moduleEdges deps) ((filesOf deps requested).map pathKey) k} := by
  constructor
  · constructor
    · intro name asked path found
      apply ReachedFrom.root
      exact List.mem_map_of_mem (List.mem_filterMap.mpr ⟨name, asked, found⟩)
    · intro k reached d leads
      exact reached.edge (List.mem_map_of_mem leads)
  · intro modules ⟨files, closed⟩ k reached
    apply reached.carries
    · intro node inside next leads
      obtain ⟨d, depends, rfl⟩ := List.mem_map.mp leads
      exact closed node inside d depends
    · intro root member
      obtain ⟨path, inside, rfl⟩ := List.mem_map.mp member
      obtain ⟨name, asked, found⟩ := List.mem_filterMap.mp inside
      exact files name asked path found

/-- The closure always comes to an end: the names that no file has, if there are any, and
otherwise, in order, the modules reached from the files. -/
theorem module_closure_outcome (deps : PathGraph) (requested : List String) :
    (∃ unknown, moduleClosure deps requested = some (.error unknown) ∧
      ∃ name ∈ requested, named deps name = none) ∨
    ∃ closure, moduleClosure deps requested = some (.ok closure) ∧
      (∀ name ∈ requested, named deps name ≠ none) ∧ Sorted pathKey closure ∧
      ∀ k, k ∈ closure.map pathKey ↔
        ReachedFrom (moduleEdges deps) ((filesOf deps requested).map pathKey) k := by
  cases unknown : requested.filter fun name => (named deps name).isNone with
  | cons name rest =>
      left
      have inside : name ∈ requested.filter fun name => (named deps name).isNone := by
        rw [unknown]
        exact List.mem_cons_self
      obtain ⟨asked, missing⟩ := List.mem_filter.mp inside
      exact ⟨_, by simp only [moduleClosure, unknown]; rfl, name, asked,
        Option.isNone_iff_eq_none.mp missing⟩
  | nil =>
      right
      have known : ∀ name ∈ requested, named deps name ≠ none := by
        intro name asked missing
        have inside : name ∈ requested.filter fun name => (named deps name).isNone :=
          List.mem_filter.mpr ⟨asked, Option.isNone_iff_eq_none.mpr missing⟩
        rw [unknown] at inside
        cases inside
      have files : ∀ k ∈ (filesOf deps requested).reverse.map pathKey,
          k ∈ deps.mentions.map pathKey := by
        intro k member
        obtain ⟨path, inside, rfl⟩ := List.mem_map.mp member
        obtain ⟨name, _, found⟩ := List.mem_filterMap.mp (List.mem_reverse.mp inside)
        exact List.mem_map_of_mem (keys_mentioned deps path (List.mem_of_find?_eq_some found))
      obtain ⟨closure, ended⟩ := close_modules_ends (deps.mentions.length + 1) []
        (filesOf deps requested).reverse files (by
          have bound := List.length_filter_le (fun k => k ∉ ([] : List Bytes).map pathKey)
            (deps.mentions.map pathKey)
          rw [List.length_map] at bound
          exact Nat.lt_succ_of_le bound)
      have start := Frontier.start (moduleEdges deps)
        ((filesOf deps requested).reverse.map pathKey)
      obtain ⟨sorted, frontier⟩ := close_modules_frontier _ [] _ closure List.Pairwise.nil start
        ended
      refine ⟨closure, ?_, known, sorted, ?_⟩
      · simp only [moduleClosure, unknown, ne_eq, not_true_eq_false, if_false]
        change (closeModules deps _ [] (filesOf deps requested).reverse).map _ = _
        rw [ended]
        rfl
      · intro k
        rw [frontier.finish k, ReachedFrom, ReachedFrom]
        simp only [List.map_reverse, List.mem_reverse]

/-! ## The file reads back -/

/-- A path that is text, not empty, without white space and without a colon. -/
def Plain (path : Bytes) : Prop :=
  ∃ chars, path = textPath chars ∧ chars ≠ [] ∧ Solid chars ∧ ':' ∉ chars

theorem path_text_plain (chars : List Char) : pathText (textPath chars) = chars := by
  rw [pathText, textPath, from_utf8_lossy_utf8, String.toList_ofList]

section File

variable {deps : PathGraph} {closure : List Bytes}

/-- The dependencies after the colon of a line. -/
def tailOf (needs : List Bytes) : List Char := needs.flatMap fun d => ' ' :: pathText d

theorem tail_words (needs : List Bytes) (plain : ∀ d ∈ needs, Plain d) :
    splitWhitespace (tailOf needs) = needs.map pathText := by
  have single : ∀ rest : List Bytes, (∀ d ∈ rest, Plain d) → ∀ chars : List Char, Solid chars →
      chars ≠ [] → splitWhitespace (chars ++ tailOf rest) = chars :: rest.map pathText := by
    intro rest
    induction rest with
    | nil =>
        intro _ chars solid some
        rw [tailOf, List.flatMap_nil, List.append_nil, split_solid chars solid some]
        rfl
    | cons d rest ih =>
        intro within chars solid some
        obtain ⟨text, rfl, nonempty, whole, _⟩ := within d List.mem_cons_self
        have rest' := ih (fun other member => within other (List.mem_cons_of_mem _ member)) text
          whole nonempty
        have split : chars ++ tailOf (textPath text :: rest) =
            chars ++ ' ' :: (text ++ tailOf rest) := by
          rw [tailOf, List.flatMap_cons, path_text_plain]
          rfl
        rw [split, split_append chars ' ' (by decide), split_solid chars solid some, rest',
          List.map_cons, path_text_plain]
        rfl
  cases needs with
  | nil => rfl
  | cons d rest =>
      obtain ⟨text, rfl, nonempty, whole, _⟩ := plain d List.mem_cons_self
      have words := single rest (fun other member => plain other (List.mem_cons_of_mem _ member))
        text whole nonempty
      have split : tailOf (textPath text :: rest) = [] ++ ' ' :: (text ++ tailOf rest) := by
        rw [tailOf, List.flatMap_cons, path_text_plain]
        rfl
      rw [split, split_append [] ' ' (by decide), words, List.map_cons, path_text_plain]
      rfl

/-- A line without its end. -/
def bodyOf (m : Bytes) (needs : List Bytes) : List Char := pathText m ++ ':' :: tailOf needs

theorem body_last (m : Bytes) (needs : List Bytes) (plain : ∀ d ∈ needs, Plain d) :
    ∀ c ∈ (bodyOf m needs).getLast?, isWhiteSpace c = false := by
  intro c last
  rw [Option.mem_def, bodyOf, List.getLast?_append_of_ne_nil _ (List.cons_ne_nil _ _)] at last
  rcases List.eq_nil_or_concat needs with rfl | ⟨before, d, rfl⟩
  · cases last
    decide
  · obtain ⟨text, rfl, nonempty, whole, _⟩ := plain d (by simp)
    have ends : ':' :: tailOf (before.concat (textPath text)) =
        (':' :: tailOf before ++ [' ']) ++ text := by
      rw [tailOf, List.concat_eq_append, List.flatMap_append, List.flatMap_singleton,
        path_text_plain]
      simp [tailOf]
    rw [ends, List.getLast?_append_of_ne_nil _ nonempty] at last
    exact whole c (List.mem_of_getLast? last)

theorem body_whole (m : Bytes) (needs : List Bytes) (plain : Plain m)
    (others : ∀ d ∈ needs, Plain d) : newline ∉ bodyOf m needs := by
  intro member
  obtain ⟨name, rfl, _, solid, _⟩ := plain
  rw [bodyOf, path_text_plain, List.mem_append, List.mem_cons, tailOf, List.mem_flatMap] at member
  rcases member with inName | colon | ⟨d, inside, inTail⟩
  · exact solid_not_newline solid inName
  · revert colon
    decide
  · obtain ⟨text, rfl, _, whole, _⟩ := others d inside
    rw [path_text_plain, List.mem_cons] at inTail
    rcases inTail with space | inText
    · revert space
      decide
    · exact solid_not_newline whole inText

theorem chomp_body (m : Bytes) (needs : List Bytes) (plain : ∀ d ∈ needs, Plain d) :
    chompReturn (bodyOf m needs) = bodyOf m needs := by
  rw [chompReturn, if_neg]
  intro last
  have solid := body_last m needs plain _ last
  revert solid
  decide

theorem parse_body (m : Bytes) (needs : List Bytes) (plain : Plain m)
    (others : ∀ d ∈ needs, Plain d) : parseLine (bodyOf m needs) = some (m, needs) := by
  obtain ⟨name, rfl, some, solid, noColon⟩ := plain
  have trimmed : trimChars (bodyOf (textPath name) needs) = name ++ ':' :: tailOf needs := by
    rw [trim_chars_of_ends _ _ (body_last (textPath name) needs others), bodyOf, path_text_plain]
    intro c first
    rw [bodyOf, path_text_plain, List.head?_append_of_ne_nil _ some] at first
    exact solid c (List.mem_of_mem_head? first)
  have split : splitOnce (· = ':') (name ++ ':' :: tailOf needs) = Option.some (name, tailOf needs) := by
    apply split_once_append
    · intro d member
      rw [decide_eq_false_iff_not]
      rintro rfl
      exact noColon member
    · exact decide_eq_true rfl
  have back : (needs.map pathText).map textPath = needs := by
    rw [List.map_map, List.map_congr_left (g := id), List.map_id]
    intro d member
    obtain ⟨text, rfl, _⟩ := others d member
    exact congrArg textPath (path_text_plain text)
  rw [parseLine, trimmed, split]
  dsimp only
  rw [trim_chars_of_no_space name solid, if_neg some, tail_words needs others, back]

/-- The lines of the file are those of the modules. -/
theorem lines_emitted (modules : List Bytes)
    (plain : ∀ m ∈ modules, Plain m ∧ ∀ d ∈ deps.next (pathKey m), Plain d)
    (closed : ∀ m ∈ modules, ∀ d ∈ deps.next (pathKey m), pathKey d ∈ closure.map pathKey) :
    lines (modules.flatMap (emitLine closure deps)) =
      modules.map fun m => bodyOf m (deps.next (pathKey m)) := by
  induction modules with
  | nil => exact lines_nil
  | cons m rest ih =>
      obtain ⟨here, others⟩ := plain m List.mem_cons_self
      have all : (deps.next (pathKey m)).filter (fun d => pathKey d ∈ closure.map pathKey) =
          deps.next (pathKey m) := by
        apply List.filter_eq_self.mpr
        intro d member
        exact decide_eq_true (closed m List.mem_cons_self d member)
      have line : emitLine closure deps m = bodyOf m (deps.next (pathKey m)) ++ [newline] := by
        simp only [emitLine, all]
        rfl
      rw [List.flatMap_cons, line, List.append_assoc, List.singleton_append,
        lines_cons _ _ (body_whole m _ here others), chomp_body m _ others,
        ih (fun other member => plain other (List.mem_cons_of_mem _ member))
          (fun other member => closed other (List.mem_cons_of_mem _ member)), List.map_cons]

/-- Lines of rising modules are added one behind the other. -/
theorem add_lines (modules : List Bytes) (graph : PathGraph) (sorted : Sorted pathKey modules)
    (plain : ∀ m ∈ modules, Plain m ∧ ∀ d ∈ deps.next (pathKey m), Plain d)
    (above : ∀ old ∈ graph.keys, ∀ m ∈ modules, pathKey old < pathKey m) :
    ((modules.map fun m => bodyOf m (deps.next (pathKey m))).foldl addLine graph).entries =
      graph.entries ++ modules.map fun m => (m, deps.next (pathKey m)) := by
  induction modules generalizing graph with
  | nil => simp
  | cons m rest ih =>
      obtain ⟨below, ordered⟩ := List.pairwise_cons.mp sorted
      obtain ⟨here, others⟩ := plain m List.mem_cons_self
      have added : addLine graph (bodyOf m (deps.next (pathKey m))) =
          graph.insert m (deps.next (pathKey m)) := by
        rw [addLine, parse_body m _ here others]
      have entries := insert_after graph m (deps.next (pathKey m)) fun old member =>
        above old member m List.mem_cons_self
      rw [List.map_cons, List.foldl_cons, added, ih _ ordered
        (fun other member => plain other (List.mem_cons_of_mem _ member)), entries,
        List.append_assoc, List.singleton_append, List.map_cons]
      intro old member later inside
      rw [PathMap.keys, entries, List.map_append, List.mem_append] at member
      rcases member with earlier | new
      · exact above old earlier later (List.mem_cons_of_mem _ inside)
      · rw [List.mem_singleton.mp new]
        exact below later inside

/-- The file of a closure reads back as its part of the graph. -/
theorem emitted_reads_back (sorted : Sorted pathKey closure)
    (plain : ∀ m ∈ closure, Plain m ∧ ∀ d ∈ deps.next (pathKey m), Plain d)
    (closed : ∀ m ∈ closure, ∀ d ∈ deps.next (pathKey m), pathKey d ∈ closure.map pathKey) :
    (parseModulesDep (emitModulesDep closure deps)).entries =
      closure.map fun m => (m, deps.next (pathKey m)) := by
  rw [parseModulesDep, emitModulesDep, lines_emitted closure plain closed,
    add_lines closure PathMap.empty sorted plain fun old member => absurd member List.not_mem_nil]
  rfl

end File

/-! ## The load order -/

/-- The walk ends on every graph. -/
theorem load_order_ends (graph : PathGraph) : ∃ order, moduleLoadOrder graph = some order := by
  apply post_order_ends (graph.mentions.map pathKey)
  · exact fun k _ next leads => edges_mentioned graph k next leads
  · rw [List.length_map]
    exact Nat.lt_succ_self _
  · exact fun path key => List.mem_map_of_mem (keys_mentioned graph path key)

/-- The walk over a part of a graph that is closed lists the modules of that part, each
once, and after all it depends on where there is no cycle. -/
theorem load_order_lists (deps graph : PathGraph) (closure order : List Bytes)
    (entries : graph.entries = closure.map fun m => (m, deps.next (pathKey m)))
    (sorted : Sorted pathKey closure)
    (closed : ∀ m ∈ closure, ∀ d ∈ deps.next (pathKey m), pathKey d ∈ closure.map pathKey)
    (walked : moduleLoadOrder graph = some order) :
    (order.map pathKey).Perm (closure.map pathKey) ∧
      ((∀ k, ¬Relation.TransGen (fun k next => next ∈ moduleEdges deps k) k k) →
        ∀ first m rest, order = first ++ m :: rest →
          ∀ d ∈ deps.next (pathKey m), pathKey d ∈ first.map pathKey) := by
  have keys : graph.keys = closure := by
    rw [PathMap.keys, entries, List.map_map]
    exact List.map_id closure
  have inside : ∀ m ∈ closure, graph.next (pathKey m) = deps.next (pathKey m) := by
    intro m member
    apply next_of_mem
    rw [entries]
    exact List.mem_map_of_mem member
  have outside : ∀ k next, next ∈ moduleEdges graph k → next ∈ moduleEdges deps k := by
    intro k next leads
    obtain ⟨d, depends, rfl⟩ := List.mem_map.mp leads
    have key := (next_mentioned graph k d depends).2
    rw [keys] at key
    obtain ⟨m, member, rfl⟩ := List.mem_map.mp key
    rw [inside m member] at depends
    exact List.mem_map_of_mem depends
  obtain ⟨distinct, listed, _⟩ := post_order_lists _ _ order walked
  rw [keys] at listed
  have exactly : ∀ k, k ∈ order.map pathKey ↔ k ∈ closure.map pathKey := by
    intro k
    rw [listed]
    constructor
    · intro reached
      apply reached.carries
      · intro other member next leads
        obtain ⟨m, inClosure, rfl⟩ := List.mem_map.mp member
        obtain ⟨d, depends, rfl⟩ := List.mem_map.mp (outside _ next leads)
        exact closed m inClosure d depends
      · exact fun root member => member
    · exact ReachedFrom.root
  refine ⟨(List.perm_ext_iff_of_nodup distinct (sorted_nodup sorted)).mpr exactly, ?_⟩
  intro acyclic first m rest same d depends
  have member : pathKey m ∈ order.map pathKey := by
    rw [same]
    simp
  obtain ⟨other, inClosure, equal⟩ := List.mem_map.mp ((exactly _).mp member)
  apply post_order_acyclic _ _ order walked _ first m rest same
  · apply List.mem_map_of_mem
    rw [← equal] at depends ⊢
    rw [inside other inClosure]
    exact depends
  · intro k cycle
    exact acyclic k (Relation.TransGen.mono outside _ _ cycle)

/-- From any graph and any requested names: an error exactly when some name stands for no
file; otherwise the least set of modules that is demanded, and, where the paths are plain,
a file from which the init loads each of them once, dependencies first. -/
theorem modules_load_in_order (deps : PathGraph) (requested : List String) :
    (∃ outcome, moduleClosure deps requested = some outcome ∧
      ((∃ unknown, outcome = .error unknown) ↔
        ∃ name ∈ requested, ∀ path ∈ deps.keys, moduleName path ≠ underscored name.toList) ∧
      ∀ closure, outcome = .ok closure →
        IsLeast {modules | Demanded deps requested modules} {k | k ∈ closure.map pathKey} ∧
        ((∀ m ∈ closure, Plain m ∧ ∀ d ∈ deps.next (pathKey m), Plain d) →
          ∃ order,
            moduleLoadOrder (parseModulesDep (emitModulesDep closure deps)) = some order ∧
            (order.map pathKey).Perm (closure.map pathKey) ∧ (order.map pathKey).Nodup ∧
            ((∀ k, ¬Relation.TransGen (fun k next => next ∈ moduleEdges deps k) k k) →
              ∀ first m rest, order = first ++ m :: rest →
                ∀ d ∈ deps.next (pathKey m), pathKey d ∈ first.map pathKey))) ∧
    ∀ graph, ∃ order, moduleLoadOrder graph = some order := by
  refine ⟨?_, load_order_ends⟩
  have nameless : ∀ name, named deps name = none ↔
      ∀ path ∈ deps.keys, moduleName path ≠ underscored name.toList := by
    intro name
    simp [named, List.find?_eq_none]
  obtain ⟨unknown, outcome, name, asked, missing⟩ | ⟨closure, outcome, known, sorted, exactly⟩ :=
    module_closure_outcome deps requested
  · refine ⟨.error unknown, outcome, ⟨fun _ => ⟨name, asked, (nameless name).mp missing⟩,
      fun _ => ⟨unknown, rfl⟩⟩, ?_⟩
    intro closure other
    cases other
  · refine ⟨.ok closure, outcome, ⟨?_, ?_⟩, ?_⟩
    · rintro ⟨unknown, other⟩
      cases other
    · rintro ⟨name, asked, none⟩
      exact absurd ((nameless name).mpr none) (known name asked)
    · intro other same
      cases same
      have least := reached_least deps requested
      have equal : {k | k ∈ closure.map pathKey} =
          {k | ReachedFrom (moduleEdges deps) ((filesOf deps requested).map pathKey) k} :=
        Set.ext exactly
      rw [equal]
      refine ⟨least, fun plain => ?_⟩
      have closed : ∀ m ∈ closure, ∀ d ∈ deps.next (pathKey m),
          pathKey d ∈ closure.map pathKey := by
        intro m member d depends
        rw [exactly]
        exact ((exactly _).mp (List.mem_map_of_mem member)).edge (List.mem_map_of_mem depends)
      obtain ⟨order, walked⟩ := load_order_ends (parseModulesDep (emitModulesDep closure deps))
      obtain ⟨permuted, first⟩ := load_order_lists deps _ closure order
        (emitted_reads_back sorted plain closed) sorted closed walked
      exact ⟨order, walked, permuted, permuted.nodup_iff.mpr (sorted_nodup sorted), first⟩

/-- A filesystem, the two modules it depends on, and one that nobody asks for. -/
def sampleModules : PathGraph := parseModulesDep
  "fs/ext4.ko: fs/mbcache.ko fs/jbd2.ko\nfs/squashfs.ko:\nfs/mbcache.ko:\nfs/jbd2.ko:\n".toList

def sampleClosure : List Bytes :=
  ["fs/ext4.ko", "fs/jbd2.ko", "fs/mbcache.ko"].map fun name => textPath name.toList

theorem sample_modules_load_in_order :
    moduleClosure sampleModules ["ext4"] = some (.ok sampleClosure) ∧
      ∃ order,
        moduleLoadOrder (parseModulesDep (emitModulesDep sampleClosure sampleModules)) =
          some order ∧
        (order.map pathKey).Perm (sampleClosure.map pathKey) := by
  have closed : moduleClosure sampleModules ["ext4"] = some (.ok sampleClosure) := by
    decide +kernel
  have plain : ∀ m ∈ sampleClosure, Plain m := by
    intro m member
    obtain ⟨name, inside, rfl⟩ := List.mem_map.mp member
    have checked : ∀ name ∈ ["fs/ext4.ko", "fs/jbd2.ko", "fs/mbcache.ko"],
        name.toList ≠ [] ∧ Solid name.toList ∧ ':' ∉ name.toList := by
      decide +kernel
    exact ⟨name.toList, rfl, checked name inside⟩
  have within : ∀ m ∈ sampleClosure, ∀ d ∈ sampleModules.next (pathKey m), d ∈ sampleClosure := by
    decide +kernel
  obtain ⟨outcome, found, _, closure⟩ := (modules_load_in_order sampleModules ["ext4"]).1
  rw [closed] at found
  cases found
  obtain ⟨order, walked, permuted, _⟩ := (closure sampleClosure rfl).2 fun m member =>
    ⟨plain m member, fun d depends => plain d (within m member d depends)⟩
  exact ⟨closed, order, walked, permuted⟩

end HorizonOs.Keybuild
