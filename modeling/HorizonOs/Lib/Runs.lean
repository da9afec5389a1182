import Mathlib.Data.List.Basic

/-!
# Runs of a step function and effectful actions

Runs of a machine given by its step function, runs in which every step meets
a condition, and the induction that carries an invariant along them. For
actions that keep their state when they fail (`EStateM`), `Preserves` says how
the state may move whatever the outcome, and composes under `bind`.
-/

namespace HorizonOs.Lib.Runs

set_option autoImplicit false

section Machine

variable {State Action : Type}

/-- The state a list of actions leads to. -/
def run (step : State → Action → State) (start : State) (actions : List Action) : State :=
  actions.foldl step start

/-- Every action of the run meets `guard` in the state it is taken in. -/
def Guarded (step : State → Action → State) (guard : State → Action → Prop) :
    State → List Action → Prop
  | _, [] => True
  | state, action :: rest => guard state action ∧ Guarded step guard (step state action) rest

instance guardedDecidable (step : State → Action → State) (guard : State → Action → Prop)
    [∀ state action, Decidable (guard state action)] :
    ∀ start actions, Decidable (Guarded step guard start actions)
  | _, [] => isTrue trivial
  | state, action :: rest =>
      have := guardedDecidable step guard (step state action) rest
      inferInstanceAs (Decidable (guard state action ∧
        Guarded step guard (step state action) rest))

@[simp] theorem run_nil (step : State → Action → State) (start : State) :
    run step start [] = start := rfl

@[simp] theorem run_cons (step : State → Action → State) (start : State) (action : Action)
    (rest : List Action) : run step start (action :: rest) = run step (step start action) rest :=
  rfl

theorem run_append (step : State → Action → State) (start : State) (first second : List Action) :
    run step start (first ++ second) = run step (run step start first) second := by
  simp [run, List.foldl_append]

theorem guarded_append (step : State → Action → State) (guard : State → Action → Prop)
    (start : State) (first second : List Action) :
    Guarded step guard start (first ++ second) ↔
      Guarded step guard start first ∧ Guarded step guard (run step start first) second := by
  induction first generalizing start with
  | nil => simp [Guarded]
  | cons action rest ih => simp [Guarded, ih, and_assoc]

/-- What holds at the start and is kept by every step that meets the guard
holds wherever a guarded run leads. -/
theorem guarded_run_invariant (step : State → Action → State) (guard : State → Action → Prop)
    (invariant : State → Prop)
    (kept : ∀ state action, invariant state → guard state action → invariant (step state action))
    (start : State) (actions : List Action) (initial : invariant start)
    (guarded : Guarded step guard start actions) : invariant (run step start actions) := by
  induction actions generalizing start with
  | nil => exact initial
  | cons action rest ih =>
      obtain ⟨now, later⟩ := guarded
      exact ih (step start action) (kept start action initial now) later

/-- A guard that does not look at the state may be taken apart from one that does. -/
theorem guarded_everywhere (step : State → Action → State) (always : Action → Prop)
    (guard : State → Action → Prop) (start : State) (actions : List Action)
    (each : ∀ action ∈ actions, always action) (guarded : Guarded step guard start actions) :
    Guarded step (fun state action => always action ∧ guard state action) start actions := by
  induction actions generalizing start with
  | nil => exact trivial
  | cons action rest ih =>
      obtain ⟨now, later⟩ := guarded
      obtain ⟨first, others⟩ := List.forall_mem_cons.mp each
      exact ⟨⟨first, now⟩, ih (step start action) others later⟩

/-- What a guarded step does where an invariant holds, every step of a guarded run does. -/
theorem guarded_steps (step : State → Action → State) (guard property : State → Action → Prop)
    (invariant : State → Prop)
    (kept : ∀ state action, invariant state → guard state action → invariant (step state action))
    (does : ∀ state action, invariant state → guard state action → property state action)
    (start : State) (actions : List Action) (initial : invariant start)
    (guarded : Guarded step guard start actions) : Guarded step property start actions := by
  induction actions generalizing start with
  | nil => exact trivial
  | cons action rest ih =>
      obtain ⟨now, later⟩ := guarded
      exact ⟨does start action initial now,
        ih (step start action) (kept start action initial now) later⟩

/-- A property that passes back along every step, and holds at the end of a
guarded run, may be added to its guard. -/
theorem guarded_inherited (step : State → Action → State) (guard : State → Action → Prop)
    (property : State → Prop) (inherited : ∀ state action, property (step state action) →
      property state)
    (start : State) (actions : List Action) (guarded : Guarded step guard start actions)
    (final : property (run step start actions)) :
    property start ∧
      Guarded step (fun state action => guard state action ∧ property (step state action)) start
        actions := by
  induction actions generalizing start with
  | nil => exact ⟨final, trivial⟩
  | cons action rest ih =>
      obtain ⟨now, later⟩ := guarded
      obtain ⟨next, tail⟩ := ih (step start action) later final
      exact ⟨inherited start action next, ⟨now, next⟩, tail⟩

/-- The same for a machine whose steps need no condition. -/
theorem run_invariant (step : State → Action → State) (invariant : State → Prop)
    (kept : ∀ state action, invariant state → invariant (step state action))
    (start : State) (actions : List Action) (initial : invariant start) :
    invariant (run step start actions) := by
  induction actions generalizing start with
  | nil => exact initial
  | cons action rest ih => exact ih (step start action) (kept start action initial)

/-- What every step relates to its successor, a whole run relates to its end. -/
theorem run_relates (step : State → Action → State) (relation : State → State → Prop)
    (refl : ∀ state, relation state state)
    (trans : ∀ first second third, relation first second → relation second third →
      relation first third)
    (steps : ∀ state action, relation state (step state action))
    (start : State) (actions : List Action) : relation start (run step start actions) := by
  induction actions generalizing start with
  | nil => exact refl start
  | cons action rest ih =>
      exact trans _ _ _ (steps start action) (ih (step start action))

end Machine

section Effects

variable {ε σ α β : Type}

/-- The state an outcome leaves behind, a success's or a failure's. -/
def finalState : EStateM.Result ε σ α → σ
  | .ok _ state => state
  | .error _ state => state

@[simp] theorem final_state_ok (value : α) (state : σ) :
    finalState (EStateM.Result.ok value state : EStateM.Result ε σ α) = state := rfl

@[simp] theorem final_state_error (error : ε) (state : σ) :
    finalState (EStateM.Result.error error state : EStateM.Result ε σ α) = state := rfl

def isOk : EStateM.Result ε σ α → Bool
  | .ok _ _ => true
  | .error _ _ => false

theorem of_is_ok (outcome : EStateM.Result ε σ α) (ok : isOk outcome = true) :
    ∃ value state, outcome = .ok value state := by
  cases outcome with
  | ok value state => exact ⟨value, state, rfl⟩
  | error error state => cases ok

/-- A success whose value and state pass a check. -/
def okWith (check : α → σ → Bool) : EStateM.Result ε σ α → Bool
  | .ok value state => check value state
  | .error _ _ => false

theorem of_ok_with (check : α → σ → Bool) (outcome : EStateM.Result ε σ α)
    (ok : okWith check outcome = true) :
    ∃ value state, outcome = .ok value state ∧ check value state = true := by
  cases outcome with
  | ok value state => exact ⟨value, state, rfl, ok⟩
  | error error state => cases ok

theorem of_to_option {result : Except ε α} {value : α} (same : result.toOption = some value) :
    result = .ok value := by
  cases result with
  | ok other =>
      cases same
      rfl
  | error error => cases same

/-- A computation that ends well has got through its first part. -/
theorem of_bind_ok {first : Except ε α} {next : α → Except ε β} {result : β}
    (ended : (first >>= next) = .ok result) :
    ∃ value, first = .ok value ∧ next value = .ok result := by
  cases first with
  | ok value => exact ⟨value, rfl, ended⟩
  | error error => cases ended

theorem bind_ok {first : Except ε α} {next : α → Except ε β} {value : α} {result : β}
    (began : first = .ok value) (ended : next value = .ok result) :
    (first >>= next) = .ok result := by
  rw [began]
  exact ended

/-! ### Steps that may fail -/

section Attempts

variable {State Action : Type} {step : State → Action → Except ε State}

/-- Take every action, and stop at the first that fails. -/
def attempt (step : State → Action → Except ε State) (start : State) :
    List Action → Except ε State
  | [] => .ok start
  | action :: rest => do attempt step (← step start action) rest

/-- A property of every action taken, in the state it is taken in. -/
def Throughout (step : State → Action → Except ε State) (property : State → Action → Prop) :
    State → List Action → Prop
  | _, [] => True
  | state, action :: rest =>
      property state action ∧ ∀ after, step state action = .ok after →
        Throughout step property after rest

theorem attempt_append (start : State) (first second : List Action) :
    attempt step start (first ++ second) =
      attempt step start first >>= fun between => attempt step between second := by
  induction first generalizing start with
  | nil => rfl
  | cons action rest ih =>
      rw [List.cons_append, attempt, attempt]
      cases step start action with
      | error error => rfl
      | ok after => exact ih after

theorem attempt_split {start after : State} {first second : List Action}
    (ended : attempt step start (first ++ second) = .ok after) :
    ∃ between, attempt step start first = .ok between ∧
      attempt step between second = .ok after := by
  rw [attempt_append] at ended
  exact of_bind_ok ended

theorem throughout_append (property : State → Action → Prop) (start : State)
    (first second : List Action) :
    Throughout step property start (first ++ second) ↔
      Throughout step property start first ∧ ∀ between, attempt step start first = .ok between →
        Throughout step property between second := by
  induction first generalizing start with
  | nil =>
      constructor
      · intro all
        refine ⟨trivial, fun between reached => ?_⟩
        cases reached
        exact all
      · exact fun all => all.2 start rfl
  | cons action rest ih =>
      constructor
      · intro ⟨now, later⟩
        refine ⟨⟨now, fun after taken => ((ih after).mp (later after taken)).1⟩, ?_⟩
        intro between reached
        obtain ⟨after, taken, others⟩ := of_bind_ok reached
        exact ((ih after).mp (later after taken)).2 between others
      · intro ⟨⟨now, early⟩, late⟩
        refine ⟨now, fun after taken => (ih after).mpr ⟨early after taken, ?_⟩⟩
        intro between others
        exact late between (bind_ok taken others)

/-- What an action is, whatever the state, it is throughout. -/
theorem throughout_of_all (property : State → Action → Prop) (start : State)
    (actions : List Action) (all : ∀ action ∈ actions, ∀ state, property state action) :
    Throughout step property start actions := by
  induction actions generalizing start with
  | nil => exact trivial
  | cons action rest ih =>
      obtain ⟨first, others⟩ := List.forall_mem_cons.mp all
      exact ⟨first start, fun after _ => ih after others⟩

/-- What every action that succeeds keeps, a run that succeeds keeps. -/
theorem attempt_invariant (invariant : State → Prop) {start after : State}
    {actions : List Action}
    (kept : ∀ action ∈ actions, ∀ state next, invariant state → step state action = .ok next →
      invariant next)
    (initial : invariant start) (ended : attempt step start actions = .ok after) :
    invariant after := by
  induction actions generalizing start with
  | nil =>
      cases ended
      exact initial
  | cons action rest ih =>
      obtain ⟨first, others⟩ := List.forall_mem_cons.mp kept
      obtain ⟨next, taken, later⟩ := of_bind_ok ended
      exact ih others (first start next initial taken) later

end Attempts

/-- Whether the action succeeds or fails, it moves the state along `relation`. -/
def Preserves (relation : σ → σ → Prop) (action : EStateM ε σ α) : Prop :=
  ∀ state, relation state (finalState (action state))

variable {relation : σ → σ → Prop}

theorem bind_apply (action : EStateM ε σ α) (next : α → EStateM ε σ β) (state : σ) :
    (action >>= next) state =
      match action state with
      | .ok value later => next value later
      | .error error later => .error error later := rfl

theorem get_apply (state : σ) : (get : EStateM ε σ σ) state = .ok state state := rfl

theorem pure_apply (value : α) (state : σ) :
    (pure value : EStateM ε σ α) state = .ok value state := rfl

theorem throw_apply (error : ε) (state : σ) :
    (throw error : EStateM ε σ α) state = .error error state := rfl

theorem Preserves.pure (refl : ∀ state, relation state state) (value : α) :
    Preserves relation (Pure.pure value : EStateM ε σ α) :=
  fun state => refl state

theorem Preserves.bind
    (trans : ∀ first second third, relation first second → relation second third →
      relation first third)
    {action : EStateM ε σ α} {next : α → EStateM ε σ β}
    (first : Preserves relation action) (second : ∀ value, Preserves relation (next value)) :
    Preserves relation (action >>= next) := by
  intro state
  have moved := first state
  rw [bind_apply]
  cases outcome : action state with
  | ok value later =>
      rw [outcome] at moved
      exact trans state later _ moved (second value later)
  | error error later =>
      rw [outcome] at moved
      exact moved

/-- The same where what follows need only be looked at for the values that come. -/
theorem Preserves.bind_when (gives : α → Prop)
    (trans : ∀ first second third, relation first second → relation second third →
      relation first third)
    {action : EStateM ε σ α} {next : α → EStateM ε σ β} (first : Preserves relation action)
    (given : ∀ state value later, action state = .ok value later → gives value)
    (second : ∀ value, gives value → Preserves relation (next value)) :
    Preserves relation (action >>= next) := by
  intro state
  have moved := first state
  rw [bind_apply]
  cases outcome : action state with
  | ok value later =>
      rw [outcome] at moved
      exact trans state later _ moved (second value (given state value later outcome) later)
  | error error later =>
      rw [outcome] at moved
      exact moved

end Effects

end HorizonOs.Lib.Runs
