import HorizonOs.Lib.Runs

/-!
# What an insertion may do to a tree

A tree is seen through what stands at each of its paths. An insertion at a path may put
something there and make the directories above it; everything else stays. Both laws pass
from a directory to the directory it lies in.
-/

namespace HorizonOs.Lib.PathFrame

open HorizonOs.Lib.Runs

set_option autoImplicit false

variable {κ ν : Type}

/-- What stands at each path; nothing stands at the empty one. -/
abbrev View (κ ν : Type) := List κ → Option ν

/-- A leaf placed at `target`: what stands elsewhere stays, and what is new beside it is a
directory above it. -/
structure Placed (isDir : ν → Prop) (leaf : ν) (before after : View κ ν) (target : List κ) :
    Prop where
  kept : ∀ path item, path ≠ target → before path = some item → after path = some item
  parents : ∀ path item, path ≠ target → before path = none → after path = some item →
    isDir item ∧ path <+: target
  there : after target = some leaf

/-- A directory at `target`: all that stood stays, and what is new is a directory on the way. -/
structure Grown (isDir : ν → Prop) (before after : View κ ν) (target : List κ) : Prop where
  kept : ∀ path item, before path = some item → after path = some item
  made : ∀ path item, before path = none → after path = some item → isDir item ∧ path <+: target
  there : target ≠ [] → ∃ item, after target = some item ∧ isDir item

/-- `sub` is what stands below the entry `key` of `whole`. -/
def Below (whole sub : View κ ν) (key : κ) : Prop :=
  sub [] = none ∧ ∀ rest, rest ≠ [] → whole (key :: rest) = sub rest

/-- Only what stands at or below `key` may differ. -/
def Beside (before after : View κ ν) (key : κ) : Prop :=
  before [] = none ∧ after [] = none ∧
    ∀ other rest, other ≠ key → after (other :: rest) = before (other :: rest)

section Nesting

variable {isDir : ν → Prop} {leaf : ν} {before after subBefore subAfter : View κ ν} {key : κ}
  {target : List κ}

/-- A path is empty, begins with another key, is the key alone, or goes below it. -/
theorem path_cases (key : κ) (motive : List κ → Prop) (empty : motive [])
    (elsewhere : ∀ other rest, other ≠ key → motive (other :: rest)) (here : motive [key])
    (under : ∀ rest, rest ≠ [] → motive (key :: rest)) (path : List κ) : motive path := by
  cases path with
  | nil => exact empty
  | cons first rest =>
      by_cases same : first = key
      · subst same
        by_cases last : rest = []
        · exact last ▸ here
        · exact under rest last
      · exact elsewhere first rest same

/-- Below an entry that stays as it is, or is made as a directory, the law is the inner one. -/
theorem placed_nested_iff (beside : Beside before after key) (wasBelow : Below before subBefore key)
    (isBelow : Below after subAfter key) (inside : target ≠ [])
    (entry : ∃ item, after [key] = some item ∧ (before [key] = some item ∨
      before [key] = none ∧ isDir item)) :
    Placed isDir leaf before after (key :: target) ↔
      Placed isDir leaf subBefore subAfter target := by
  obtain ⟨item, nowThere, origin⟩ := entry
  constructor
  · intro placed
    refine ⟨?_, ?_, ?_⟩
    · intro path found other was
      by_cases empty : path = []
      · rw [empty, wasBelow.1] at was
        cases was
      rw [← isBelow.2 path empty]
      exact placed.kept _ _ (fun same => other (List.cons.inj same).2)
        ((wasBelow.2 path empty).trans was)
    · intro path found other was now
      by_cases empty : path = []
      · rw [empty, isBelow.1] at now
        cases now
      obtain ⟨dir, above⟩ := placed.parents (key :: path) found
        (fun same => other (List.cons.inj same).2) ((wasBelow.2 path empty).trans was)
        ((isBelow.2 path empty).trans now)
      exact ⟨dir, (List.cons_prefix_cons.mp above).2⟩
    · rw [← isBelow.2 target inside]
      exact placed.there
  · intro placed
    refine ⟨?_, ?_, ?_⟩
    · intro path
      induction path using path_cases key with
      | empty =>
          intro found _ was
          rw [beside.1] at was
          cases was
      | elsewhere other rest different =>
          intro found _ was
          rwa [beside.2.2 other rest different]
      | here =>
          intro found _ was
          rcases origin with same | missing
          · rwa [nowThere, ← same]
          · rw [missing.1] at was
            cases was
      | under rest below =>
          intro found other was
          rw [isBelow.2 rest below]
          exact placed.kept rest found (fun same => other (same ▸ rfl))
            ((wasBelow.2 rest below).symm.trans was)
    · intro path
      induction path using path_cases key with
      | empty =>
          intro found _ _ now
          rw [beside.2.1] at now
          cases now
      | elsewhere other rest different =>
          intro found _ was now
          rw [beside.2.2 other rest different, was] at now
          cases now
      | here =>
          intro found _ was now
          rcases origin with same | missing
          · rw [same] at was
            cases was
          · cases nowThere.symm.trans now
            exact ⟨missing.2, List.cons_prefix_cons.mpr ⟨rfl, List.nil_prefix⟩⟩
      | under rest below =>
          intro found other was now
          obtain ⟨dir, above⟩ := placed.parents rest found (fun same => other (same ▸ rfl))
            ((wasBelow.2 rest below).symm.trans was) ((isBelow.2 rest below).symm.trans now)
          exact ⟨dir, List.cons_prefix_cons.mpr ⟨rfl, above⟩⟩
    · rw [isBelow.2 target inside]
      exact placed.there

/-- A leaf put at an entry: nothing may have stood below it. -/
theorem placed_here_iff (beside : Beside before after key) (wasBelow : Below before subBefore key)
    (leafless : ∀ rest, rest ≠ [] → after (key :: rest) = none) (there : after [key] = some leaf) :
    Placed isDir leaf before after [key] ↔ ∀ rest, subBefore rest = none := by
  constructor
  · intro placed rest
    by_cases empty : rest = []
    · rw [empty, wasBelow.1]
    rw [← wasBelow.2 rest empty]
    cases was : before (key :: rest) with
    | none => rfl
    | some item =>
        have now := placed.kept (key :: rest) item (fun same => empty (List.cons.inj same).2) was
        rw [leafless rest empty] at now
        cases now
  · intro vacant
    refine ⟨?_, ?_, there⟩
    · intro path
      induction path using path_cases key with
      | empty =>
          intro found _ was
          rw [beside.1] at was
          cases was
      | elsewhere other rest different =>
          intro found _ was
          rwa [beside.2.2 other rest different]
      | here =>
          intro found other _
          exact absurd rfl other
      | under rest below =>
          intro found _ was
          rw [wasBelow.2 rest below, vacant rest] at was
          cases was
    · intro path
      induction path using path_cases key with
      | empty =>
          intro found _ _ now
          rw [beside.2.1] at now
          cases now
      | elsewhere other rest different =>
          intro found _ was now
          rw [beside.2.2 other rest different, was] at now
          cases now
      | here =>
          intro found other _ _
          exact absurd rfl other
      | under rest below =>
          intro found _ _ now
          rw [leafless rest below] at now
          cases now

theorem Grown.refl (view : View κ ν) : Grown isDir view view [] where
  kept _ _ was := was
  made path item was now := by
    rw [was] at now
    cases now
  there inside := absurd rfl inside

theorem Grown.nested (beside : Beside before after key) (wasBelow : Below before subBefore key)
    (isBelow : Below after subAfter key)
    (entry : ∃ item, after [key] = some item ∧ isDir item ∧
      (before [key] = some item ∨ before [key] = none))
    (inner : Grown isDir subBefore subAfter target) :
    Grown isDir before after (key :: target) := by
  obtain ⟨item, nowThere, dir, origin⟩ := entry
  refine ⟨?_, ?_, ?_⟩
  · intro path
    induction path using path_cases key with
    | empty =>
        intro found was
        rw [beside.1] at was
        cases was
    | elsewhere other rest different =>
        intro found was
        rwa [beside.2.2 other rest different]
    | here =>
        intro found was
        rcases origin with same | missing
        · rwa [nowThere, ← same]
        · rw [missing] at was
          cases was
    | under rest below =>
        intro found was
        rw [isBelow.2 rest below]
        exact inner.kept rest found ((wasBelow.2 rest below).symm.trans was)
  · intro path
    induction path using path_cases key with
    | empty =>
        intro found _ now
        rw [beside.2.1] at now
        cases now
    | elsewhere other rest different =>
        intro found was now
        rw [beside.2.2 other rest different, was] at now
        cases now
    | here =>
        intro found _ now
        cases nowThere.symm.trans now
        exact ⟨dir, List.cons_prefix_cons.mpr ⟨rfl, List.nil_prefix⟩⟩
    | under rest below =>
        intro found was now
        obtain ⟨made, above⟩ := inner.made rest found ((wasBelow.2 rest below).symm.trans was)
          ((isBelow.2 rest below).symm.trans now)
        exact ⟨made, List.cons_prefix_cons.mpr ⟨rfl, above⟩⟩
  · intro _
    by_cases last : target = []
    · exact ⟨item, last ▸ nowThere, dir⟩
    · obtain ⟨found, there, made⟩ := inner.there last
      exact ⟨found, (isBelow.2 target last).trans there, made⟩

end Nesting

section Runs

variable {State Action : Type} (step : State → Action → State) (view : State → View κ ν)
  (target : Action → List κ)

/-- What no later step of a run names stands at its end. -/
theorem run_survives (start : State) (actions : List Action)
    (framed : Guarded step (fun state action => ∀ path item, path ≠ target action →
      view state path = some item → view (step state action) path = some item) start actions)
    (path : List κ) (item : ν) (untouched : ∀ action ∈ actions, path ≠ target action)
    (stood : view start path = some item) : view (run step start actions) path = some item := by
  induction actions generalizing start with
  | nil => exact stood
  | cons action rest ih =>
      obtain ⟨other, others⟩ := List.forall_mem_cons.mp untouched
      exact ih (step start action) framed.2 others (framed.1 path item other stood)

/-- What stands at some point of the run and is named by no later call stands at its end. -/
def Lasting (start : State) (actions : List Action) : Prop :=
  ∀ before after path item, actions = before ++ after →
    view (run step start before) path = some item → (∀ action ∈ after, path ≠ target action) →
      view (run step start actions) path = some item

theorem lasting_of_kept (keeps : State → Action → Prop)
    (survives : ∀ state action, keeps state action → ∀ path item, path ≠ target action →
      view state path = some item → view (step state action) path = some item)
    (start : State) (actions : List Action) (kept : Guarded step keeps start actions) :
    Lasting step view target start actions := by
  intro before after path item whole stood untouched
  rw [whole] at kept ⊢
  rw [run_append]
  have later := ((guarded_append step keeps start before after).mp kept).2
  have framed := guarded_steps step keeps _ (fun _ => True) (fun _ _ _ _ => trivial)
    (fun state action _ keep => survives state action keep) _ after trivial later
  exact run_survives step view target _ after framed path item untouched stood

end Runs

end HorizonOs.Lib.PathFrame
