import HorizonOs.Lib.Runs

/-!
# Triples

What an action that keeps its state when it fails (`EStateM`) ensures when it is run where
something holds: something of its value and the state when it ends well, and something of its error
and the state when it does not.
-/

namespace HorizonOs.Lib.Triples

open HorizonOs.Lib.Runs

set_option autoImplicit false

section Rules

variable {ε σ α β : Type}

def Triple (before : σ → Prop) (action : EStateM ε σ α) (after : α → σ → Prop)
    (failed : ε → σ → Prop) : Prop :=
  ∀ state, before state →
    (∀ value later, action state = .ok value later → after value later) ∧
      ∀ error later, action state = .error error later → failed error later

variable {before between : σ → Prop} {after : α → σ → Prop} {failed : ε → σ → Prop}

theorem Triple.pure (value : α) (holds : ∀ state, before state → after value state) :
    Triple before (Pure.pure value : EStateM ε σ α) after failed := by
  intro state start
  constructor
  · intro value' later ended
    cases ended
    exact holds state start
  · intro error later ended
    cases ended

theorem Triple.throw (error : ε) (holds : ∀ state, before state → failed error state) :
    Triple before (MonadExcept.throw error : EStateM ε σ α) after failed := by
  intro state start
  constructor
  · intro value later ended
    cases ended
  · intro error' later ended
    cases ended
    exact holds state start

theorem Triple.modify {after : Unit → σ → Prop} (change : σ → σ)
    (holds : ∀ state, before state → after () (change state)) :
    Triple before (modify change : EStateM ε σ PUnit) after failed := by
  intro state start
  constructor
  · intro value later ended
    cases ended
    exact holds state start
  · intro error later ended
    cases ended

/-- What the first part leaves is what the rest starts from. -/
theorem Triple.bind {next : α → EStateM ε σ β} {action : EStateM ε σ α}
    {middle : α → σ → Prop} {after : β → σ → Prop}
    (first : Triple before action middle failed)
    (rest : ∀ value, Triple (middle value) (next value) after failed) :
    Triple before (action >>= next) after failed := by
  intro state start
  obtain ⟨fine, bad⟩ := first state start
  rw [bind_apply]
  cases outcome : action state with
  | ok value later => exact rest value later (fine value later outcome)
  | error error later =>
      constructor
      · intro value' later' ended
        cases ended
      · intro error' later' ended
        cases ended
        exact bad error later outcome

theorem Triple.weaken {before' : σ → Prop} {after' : α → σ → Prop} {failed' : ε → σ → Prop}
    {action : EStateM ε σ α} (triple : Triple before action after failed)
    (start : ∀ state, before' state → before state)
    (fine : ∀ value state, after value state → after' value state)
    (bad : ∀ error state, failed error state → failed' error state) :
    Triple before' action after' failed' := by
  intro state holds
  obtain ⟨ends, fails⟩ := triple state (start state holds)
  exact ⟨fun value later ended => fine value later (ends value later ended),
    fun error later ended => bad error later (fails error later ended)⟩

/-- What every round keeps, all of them keep. -/
theorem Triple.forM {kept : σ → Prop} {items : List β} {action : β → EStateM ε σ PUnit}
    (round : ∀ item ∈ items, Triple kept (action item) (fun _ => kept) failed) :
    Triple kept (items.forM action) (fun _ => kept) failed := by
  induction items with
  | nil => exact Triple.pure _ fun _ holds => holds
  | cons item rest ih =>
      obtain ⟨first, others⟩ := List.forall_mem_cons.mp round
      exact first.bind fun _ => ih others

theorem Triple.ite {condition : Prop} [Decidable condition] {yes no : EStateM ε σ α}
    (holds : condition → Triple before yes after failed)
    (fails : ¬condition → Triple before no after failed) :
    Triple before (if condition then yes else no) after failed := by
  split_ifs with decided
  · exact holds decided
  · exact fails decided

end Rules

end HorizonOs.Lib.Triples
