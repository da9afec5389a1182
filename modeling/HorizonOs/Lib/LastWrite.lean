import HorizonOs.Lib.Runs
import Mathlib.Data.List.Induction

/-!
# The last write

A cell that each call overwrites, clears or leaves alone, and what it holds after all of them.
A machine keeps such a cell where each of its steps does to it what the call says.
-/

namespace HorizonOs.Lib.LastWrite

open HorizonOs.Lib.Runs

set_option autoImplicit false

section Cell

variable {State Call Value : Type} (touch : Call → Option (Option Value))

/-- What a call leaves in the cell: `touch` says whether it writes there, and what. -/
def overwrite (old : Option Value) (call : Call) : Option Value := (touch call).getD old

def lastWrite (calls : List Call) : Option Value := run (overwrite touch) none calls

variable {touch}

theorem overwrite_untouched {call : Call} (untouched : touch call = none) (old : Option Value) :
    overwrite touch old call = old := by
  rw [overwrite, untouched, Option.getD_none]

theorem overwrite_touched {call : Call} {new : Option Value} (touched : touch call = some new)
    (old : Option Value) : overwrite touch old call = new := by
  rw [overwrite, touched, Option.getD_some]

theorem run_untouched (calls : List Call) (untouched : ∀ call ∈ calls, touch call = none)
    (old : Option Value) : run (overwrite touch) old calls = old := by
  induction calls with
  | nil => rfl
  | cons call rest ih =>
      obtain ⟨first, later⟩ := List.forall_mem_cons.mp untouched
      rw [run_cons, overwrite_untouched first, ih later]

/-- What the cell holds was written by the last call that touched it. -/
theorem last_write_iff (calls : List Call) (value : Value) :
    lastWrite touch calls = some value ↔ ∃ before call after, calls = before ++ call :: after ∧
      touch call = some (some value) ∧ ∀ later ∈ after, touch later = none := by
  constructor
  · intro written
    induction calls using List.reverseRecOn with
    | nil => cases written
    | append_singleton calls call ih =>
        rw [lastWrite, run_append, run_cons, run_nil] at written
        cases touched : touch call with
        | some new =>
            rw [overwrite_touched touched] at written
            exact ⟨calls, call, [], rfl, written ▸ touched, List.forall_mem_nil _⟩
        | none =>
            rw [overwrite_untouched touched] at written
            obtain ⟨before, writer, after, rfl, wrote, untouched⟩ := ih written
            refine ⟨before, writer, after ++ [call], ?_, wrote, ?_⟩
            · rw [List.append_assoc, List.cons_append]
            · exact List.forall_mem_append.mpr ⟨untouched, List.forall_mem_singleton.mpr touched⟩
  · rintro ⟨before, call, after, rfl, wrote, untouched⟩
    rw [lastWrite, run_append, run_cons, overwrite_touched wrote, run_untouched after untouched]

/-- A machine whose steps agree with the calls agrees with them along a run. -/
theorem run_agrees (touch : Call → Option (Option Value)) {step : State → Call → State}
    (agree : State → Option Value → Prop) (calls : List Call)
    (steps : ∀ call ∈ calls, ∀ state old, agree state old →
      agree (step state call) (overwrite touch old call))
    (start : State) (old : Option Value) (initial : agree start old) :
    agree (run step start calls) (run (overwrite touch) old calls) := by
  induction calls generalizing start old with
  | nil => exact initial
  | cons call rest ih =>
      obtain ⟨first, others⟩ := List.forall_mem_cons.mp steps
      exact ih others _ _ (first start old initial)

end Cell

end HorizonOs.Lib.LastWrite
