import HorizonOs.Lib.Runs

/-!
# Programs that act by calls

A program is a tree of calls on a world that answers each before the next is
made; a call that fails ends it. The same program is run on its own, on a world
that answers differently, or a call at a time among other parties. `Safe` is
its contract in each of these: what it may assume of others between its calls,
what it owes at each call, and what holds when it ends or fails.
-/

namespace HorizonOs.Lib.Programs

open HorizonOs.Lib.Runs

set_option autoImplicit false

/-- What is left of a program: nothing but its value, or a call and what
follows for every answer. -/
inductive Program (Call : Type) (Reply : Call → Type) (α : Type) where
  | done (value : α)
  | call (request : Call) (next : Reply request → Program Call Reply α)

variable {Call : Type} {Reply : Call → Type} {ε σ α β : Type}

def Program.bind : Program Call Reply α → (α → Program Call Reply β) → Program Call Reply β
  | .done value, next => next value
  | .call request rest, next => .call request fun reply => (rest reply).bind next

instance : Monad (Program Call Reply) where
  pure := Program.done
  bind := Program.bind

def ask (request : Call) : Program Call Reply (Reply request) := .call request .done

theorem program_pure (value : α) : (pure value : Program Call Reply α) = .done value := rfl

theorem program_done_bind (value : α) (next : α → Program Call Reply β) :
    ((Program.done value : Program Call Reply α) >>= next) = next value := rfl

theorem program_call_bind (request : Call) (rest : Reply request → Program Call Reply α)
    (next : α → Program Call Reply β) :
    (Program.call request rest >>= next) = .call request fun reply => rest reply >>= next := rfl

theorem ask_bind (request : Call) (next : Reply request → Program Call Reply β) :
    (ask request >>= next) = .call request next := rfl

/-- Whoever answers the calls. -/
abbrev World (Call : Type) (Reply : Call → Type) (ε σ : Type) :=
  ∀ request : Call, EStateM ε σ (Reply request)

def Program.run (world : World Call Reply ε σ) : Program Call Reply α → EStateM ε σ α
  | .done value => pure value
  | .call request next => do
      let reply ← world request
      (next reply).run world

theorem run_call (world : World Call Reply ε σ) (request : Call)
    (next : Reply request → Program Call Reply α) (state : σ) :
    (Program.call request next).run world state =
      match world request state with
      | .ok reply later => (next reply).run world later
      | .error error later => .error error later := by
  rw [Program.run, bind_apply]
  cases world request state <;> rfl

theorem run_bind (world : World Call Reply ε σ) (first : Program Call Reply α)
    (next : α → Program Call Reply β) (state : σ) :
    (first >>= next).run world state =
      match first.run world state with
      | .ok value later => (next value).run world later
      | .error error later => .error error later := by
  induction first generalizing state with
  | done value => rfl
  | call request rest ih =>
      rw [program_call_bind, run_call, run_call]
      cases world request state with
      | ok reply later => exact ih reply later
      | error error later => rfl

/-! ## Contracts -/

/-- The terms a program runs on. -/
structure Terms (Call : Type) (Reply : Call → Type) (ε σ : Type) where
  world : World Call Reply ε σ
  /-- What others may do between two calls. -/
  rely : σ → σ → Prop
  /-- What must hold when a call is made. -/
  duty : Call → σ → Prop
  /-- What must hold after a call that failed. -/
  fault : ε → σ → Prop
  rely_refl : ∀ state, rely state state
  rely_trans : ∀ first second third, rely first second → rely second third → rely first third

/-- Nobody else moves. -/
def Terms.alone (world : World Call Reply ε σ) (duty : Call → σ → Prop)
    (fault : ε → σ → Prop) : Terms Call Reply ε σ where
  world := world
  rely first second := second = first
  duty := duty
  fault := fault
  rely_refl _ := rfl
  rely_trans _ _ _ near far := far.trans near

/-- The program does its duty at every call and ends in `post`, or fails in the
fault condition, whatever others do between the calls. -/
def Program.Safe (terms : Terms Call Reply ε σ) :
    Program Call Reply α → (α → σ → Prop) → σ → Prop
  | .done value, post, state => ∀ later, terms.rely state later → post value later
  | .call request next, post, state => ∀ later, terms.rely state later →
      terms.duty request later ∧
        match terms.world request later with
        | .ok reply after => (next reply).Safe terms post after
        | .error error after => terms.fault error after

variable {terms : Terms Call Reply ε σ} {post weaker : α → σ → Prop}

theorem Program.Safe.call {request : Call} {next : Reply request → Program Call Reply α}
    {state : σ} (owed : ∀ later, terms.rely state later → terms.duty request later)
    (answers : ∀ later reply after, terms.rely state later →
      terms.world request later = .ok reply after → (next reply).Safe terms post after)
    (fails : ∀ later error after, terms.rely state later →
      terms.world request later = .error error after → terms.fault error after) :
    (Program.call request next).Safe terms post state := by
  intro later moved
  apply And.intro (owed later moved)
  cases outcome : terms.world request later with
  | ok reply after => exact answers later reply after moved outcome
  | error error after => exact fails later error after moved outcome

theorem Program.Safe.ask {request : Call} {next : Reply request → Program Call Reply α}
    {state : σ} (owed : ∀ later, terms.rely state later → terms.duty request later)
    (answers : ∀ later reply after, terms.rely state later →
      terms.world request later = .ok reply after → (next reply).Safe terms post after)
    (fails : ∀ later error after, terms.rely state later →
      terms.world request later = .error error after → terms.fault error after) :
    (HorizonOs.Lib.Programs.ask request >>= next).Safe terms post state :=
  Program.Safe.call owed answers fails

theorem Program.Safe.pure {value : α} {state : σ}
    (holds : ∀ later, terms.rely state later → post value later) :
    (Pure.pure value : Program Call Reply α).Safe terms post state := holds

/-- What a safe program is owed an answer for, and where the answer leads. -/
theorem Program.Safe.owed {request : Call} {next : Reply request → Program Call Reply α}
    {state : σ} (safe : (Program.call request next).Safe terms post state) :
    terms.duty request state :=
  (safe state (terms.rely_refl state)).1

theorem Program.Safe.answered {request : Call} {next : Reply request → Program Call Reply α}
    {state after : σ} {reply : Reply request}
    (safe : (Program.call request next).Safe terms post state)
    (answer : terms.world request state = .ok reply after) :
    (next reply).Safe terms post after := by
  have led := (safe state (terms.rely_refl state)).2
  rw [answer] at led
  exact led

theorem Program.Safe.failed {request : Call} {next : Reply request → Program Call Reply α}
    {state after : σ} {error : ε}
    (safe : (Program.call request next).Safe terms post state)
    (answer : terms.world request state = .error error after) : terms.fault error after := by
  have led := (safe state (terms.rely_refl state)).2
  rw [answer] at led
  exact led

/-- What others do between two calls leaves a program safe. -/
theorem Program.Safe.stable {program : Program Call Reply α} {state later : σ}
    (safe : program.Safe terms post state) (moved : terms.rely state later) :
    program.Safe terms post later := by
  cases program with
  | done value => exact fun last far => safe last (terms.rely_trans _ _ _ moved far)
  | call request next => exact fun last far => safe last (terms.rely_trans _ _ _ moved far)

theorem Program.Safe.imp {program : Program Call Reply α} {state : σ}
    (safe : program.Safe terms post state)
    (implied : ∀ value later, post value later → weaker value later) :
    program.Safe terms weaker state := by
  induction program generalizing state with
  | done value => exact fun later moved => implied value later (safe later moved)
  | call request next ih =>
      apply Program.Safe.call
      · exact fun later moved => (safe.stable moved).owed
      · exact fun later reply after moved answer => ih reply ((safe.stable moved).answered answer)
      · exact fun later error after moved answer => (safe.stable moved).failed answer

theorem Program.Safe.bind {first : Program Call Reply α} {next : α → Program Call Reply β}
    {goal : β → σ → Prop} {state : σ}
    (safe : first.Safe terms (fun value later => (next value).Safe terms goal later) state) :
    (first >>= next).Safe terms goal state := by
  induction first generalizing state with
  | done value => exact safe state (terms.rely_refl state)
  | call request rest ih =>
      apply Program.Safe.call
      · exact fun later moved => (safe.stable moved).owed
      · exact fun later reply after moved answer => ih reply ((safe.stable moved).answered answer)
      · exact fun later error after moved answer => (safe.stable moved).failed answer

/-- A loop over a list keeps an invariant of the items behind and ahead. -/
theorem safe_fold {Item : Type} (body : β → Item → Program Call Reply β)
    (kept : List Item → List Item → β → σ → Prop)
    (step : ∀ behind item ahead value state, kept behind (item :: ahead) value state →
      (body value item).Safe terms (kept (behind ++ [item]) ahead) state)
    (steady : ∀ behind ahead value state later, kept behind ahead value state →
      terms.rely state later → kept behind ahead value later)
    (behind ahead : List Item) (value : β) (state : σ) (holds : kept behind ahead value state) :
    (ahead.foldlM body value).Safe terms (kept (behind ++ ahead) []) state := by
  induction ahead generalizing behind value state with
  | nil =>
      rw [List.append_nil]
      exact fun later moved => steady behind [] value state later holds moved
  | cons item rest ih =>
      rw [List.foldlM_cons, ← List.singleton_append, ← List.append_assoc]
      apply Program.Safe.bind
      apply (step behind item rest value state holds).imp
      exact fun next later after => ih (behind ++ [item]) next later after

/-- On its own, a safe program ends as its contract says. -/
theorem safe_run {world : World Call Reply ε σ} {duty : Call → σ → Prop} {fault : ε → σ → Prop}
    {program : Program Call Reply α} {state : σ}
    (safe : program.Safe (Terms.alone world duty fault) post state) :
    match program.run world state with
    | .ok value later => post value later
    | .error error later => fault error later := by
  induction program generalizing state with
  | done value => exact safe state rfl
  | call request next ih =>
      rw [run_call]
      cases outcome : world request state with
      | ok reply after => exact ih reply (safe.answered outcome)
      | error error after => exact safe.failed outcome

/-- Whether the program ends or fails, what both imply holds of the state it leaves. -/
theorem safe_final {world : World Call Reply ε σ} {duty : Call → σ → Prop}
    {fault : ε → σ → Prop} {program : Program Call Reply α} {state : σ} (goal : σ → Prop)
    (safe : program.Safe (Terms.alone world duty fault) post state)
    (ends : ∀ value later, post value later → goal later)
    (fails : ∀ error later, fault error later → goal later) :
    goal (finalState (program.run world state)) := by
  have ended := safe_run safe
  cases outcome : program.run world state with
  | ok value later =>
      rw [outcome] at ended
      exact ends value later ended
  | error error later =>
      rw [outcome] at ended
      exact fails error later ended

theorem safe_run_ok {world : World Call Reply ε σ} {duty : Call → σ → Prop} {fault : ε → σ → Prop}
    {program : Program Call Reply α} {state later : σ} {value : α}
    (safe : program.Safe (Terms.alone world duty fault) post state)
    (ran : program.run world state = .ok value later) : post value later := by
  have ended := safe_run safe
  rw [ran] at ended
  exact ended

/-- A program none of whose calls may fail ends. -/
theorem safe_ends {world : World Call Reply ε σ} {duty : Call → σ → Prop}
    {program : Program Call Reply α} {state : σ}
    (safe : program.Safe (Terms.alone world duty fun _ _ => False) post state) :
    ∃ value later, program.run world state = .ok value later ∧ post value later := by
  have ended := safe_run safe
  cases outcome : program.run world state with
  | ok value later =>
      rw [outcome] at ended
      exact ⟨value, later, rfl, ended⟩
  | error error later =>
      rw [outcome] at ended
      exact ended.elim

/-- What every call of the world keeps, however it ends, a whole run keeps. -/
theorem run_keeps {world : World Call Reply ε σ} (invariant : σ → Prop)
    (each : ∀ request state, invariant state → invariant (finalState (world request state)))
    (program : Program Call Reply α) (state : σ) (holds : invariant state) :
    invariant (finalState (program.run world state)) := by
  induction program generalizing state with
  | done value => exact holds
  | call request next ih =>
      have kept := each request state holds
      rw [run_call]
      cases outcome : world request state with
      | ok reply after =>
          rw [outcome] at kept
          exact ih reply after kept
      | error error after =>
          rw [outcome] at kept
          exact kept

/-! ## The calls of a run -/

/-- The same world, keeping the calls it was made with the state each was made
in, the latest first. -/
def recording (world : World Call Reply ε σ) : World Call Reply ε (σ × List (Call × σ)) :=
  fun request state =>
    match world request state.1 with
    | .ok reply later => .ok reply (later, (request, state.1) :: state.2)
    | .error error later => .error error (later, (request, state.1) :: state.2)

variable (world : World Call Reply ε σ)

theorem recording_final (request : Call) (state : σ) (calls : List (Call × σ)) :
    finalState (recording world request (state, calls)) =
      (finalState (world request state), (request, state) :: calls) := by
  unfold recording
  cases world request state <;> rfl

/-- A run only adds to the calls. -/
theorem recording_keeps (program : Program Call Reply α) (state : σ) (calls : List (Call × σ)) :
    calls ⊆ (finalState (program.run (recording world) (state, calls))).2 := by
  induction program generalizing state calls with
  | done value => exact List.Subset.refl calls
  | call request next ih =>
      have moved := recording_final world request state calls
      rw [run_call]
      cases outcome : recording world request (state, calls) with
      | ok reply later =>
          rw [outcome] at moved
          cases moved
          exact List.Subset.trans (List.subset_cons_self _ calls) (ih reply _ _)
      | error error later =>
          rw [outcome] at moved
          cases moved
          exact List.subset_cons_self _ calls

/-- What every recorded call keeps, if it is of the right kind, the run keeps. -/
theorem recording_invariant (invariant : σ → Prop) (kind : Call × σ → Prop)
    (kept : ∀ request state, invariant state → kind (request, state) →
      invariant (finalState (world request state)))
    (program : Program Call Reply α) (state : σ) (calls : List (Call × σ))
    (all : ∀ call ∈ (finalState (program.run (recording world) (state, calls))).2, kind call)
    (holds : invariant state) :
    invariant (finalState (program.run (recording world) (state, calls))).1 := by
  induction program generalizing state calls with
  | done value => exact holds
  | call request next ih =>
      have moved := recording_final world request state calls
      rw [run_call] at all ⊢
      cases outcome : recording world request (state, calls) with
      | ok reply later =>
          rw [outcome] at moved all
          cases moved
          apply ih reply _ _ all
          apply kept request state holds
          apply all
          exact recording_keeps world (next reply) _ _ List.mem_cons_self
      | error error later =>
          rw [outcome] at moved all
          cases moved
          exact kept request state holds (all _ List.mem_cons_self)

/-- A recorded call that failed was the last. -/
theorem recording_failed (program : Program Call Reply α) (state : σ) (calls : List (Call × σ))
    (call : Call × σ)
    (made : call ∈ (finalState (program.run (recording world) (state, calls))).2) :
    call ∈ calls ∨ isOk (world call.1 call.2) = true ∨
      (finalState (program.run (recording world) (state, calls))).1 =
        finalState (world call.1 call.2) := by
  induction program generalizing state calls with
  | done value => exact .inl made
  | call request next ih =>
      rw [run_call] at made ⊢
      cases outcome : world request state with
      | ok reply later =>
          have recorded : recording world request (state, calls) =
              .ok reply (later, (request, state) :: calls) := by
            simp only [recording, outcome]
          rw [recorded] at made ⊢
          rcases ih reply _ _ made with before | rest
          · rcases List.mem_cons.mp before with rfl | old
            · rw [outcome]
              exact .inr (.inl rfl)
            · exact .inl old
          · exact .inr rest
      | error error later =>
          have recorded : recording world request (state, calls) =
              .error error (later, (request, state) :: calls) := by
            simp only [recording, outcome]
          rw [recorded] at made ⊢
          rcases List.mem_cons.mp made with rfl | old
          · rw [outcome]
            exact .inr (.inr rfl)
          · exact .inl old

/-! ## The same program on another world -/

/-- Whatever it is answered, the program makes no other calls than these. -/
def Program.Only (kind : Call → Prop) : Program Call Reply α → Prop
  | .done _ => True
  | .call request next => kind request ∧ ∀ reply, (next reply).Only kind

section Only

variable {kind : Call → Prop}

theorem Program.Only.ask {request : Call} (asks : kind request) :
    (HorizonOs.Lib.Programs.ask request : Program Call Reply (Reply request)).Only kind :=
  ⟨asks, fun _ => trivial⟩

theorem Program.Only.bind {first : Program Call Reply α} {next : α → Program Call Reply β}
    (before : first.Only kind) (after : ∀ value, (next value).Only kind) :
    (first >>= next).Only kind := by
  induction first with
  | done value => exact after value
  | call request rest ih =>
      rw [program_call_bind]
      exact ⟨before.1, fun reply => ih reply (before.2 reply)⟩

theorem Program.Only.fold {Item : Type} {body : β → Item → Program Call Reply β}
    (each : ∀ value item, (body value item).Only kind) (items : List Item) (value : β) :
    (items.foldlM body value).Only kind := by
  induction items generalizing value with
  | nil => exact trivial
  | cons item rest ih =>
      rw [List.foldlM_cons]
      exact (each value item).bind fun next => ih next

end Only

/-- An outcome with its error put in other words. -/
def relabel {δ : Type} (change : ε → δ) : EStateM.Result ε σ α → EStateM.Result δ σ α
  | .ok value state => .ok value state
  | .error error state => .error (change error) state

/-- A world that answers each call of a run as the first does, errors put in
other words, runs the program as the first does. -/
theorem run_relabelled {δ : Type} (other : World Call Reply δ σ) (change : ε → δ)
    (kind : Call → Prop) (fits : Call × σ → Prop)
    (agrees : ∀ request state, kind request → fits (request, state) →
      other request state = relabel change (world request state))
    (program : Program Call Reply α) (only : program.Only kind) (state : σ)
    (calls : List (Call × σ))
    (all : ∀ call ∈ (finalState (program.run (recording world) (state, calls))).2, fits call) :
    program.run other state = relabel change (program.run world state) := by
  induction program generalizing state calls with
  | done value => rfl
  | call request next ih =>
      obtain ⟨asks, rest⟩ := only
      rw [run_call] at all
      rw [run_call, run_call]
      cases outcome : world request state with
      | ok reply later =>
          have recorded : recording world request (state, calls) =
              .ok reply (later, (request, state) :: calls) := by
            simp only [recording, outcome]
          rw [recorded] at all
          have made := recording_keeps world (next reply) later ((request, state) :: calls)
          rw [agrees request state asks (all _ (made List.mem_cons_self)), outcome]
          exact ih reply (rest reply) later _ all
      | error error later =>
          have recorded : recording world request (state, calls) =
              .error error (later, (request, state) :: calls) := by
            simp only [recording, outcome]
          rw [recorded] at all
          rw [agrees request state asks (all _ List.mem_cons_self), outcome]
          rfl

end HorizonOs.Lib.Programs
