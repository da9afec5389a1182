import HorizonOs.Lib.HashTable
import HorizonOs.Lib.Runs
import Mathlib.Data.List.Induction
import Mathlib.Logic.Function.Basic

/-!
# Meeting points

A server that keeps under keys who waits to be reached, and runs a task for every request. One who
waits is listed, answered, and held until its connection closes. One who calls tries those who were
listed when it came, in turn, and drops those whose connections are gone. Tasks come and take their
steps in any order.
-/

namespace HorizonOs.Lib.Meeting

open HorizonOs.Lib.HashTable HorizonOs.Lib.Runs

set_option autoImplicit false

variable {Key Conn Info Task : Type}

/-! ## The board -/

/-- One who waits, and how it was seen. -/
structure Waiter (Conn Info : Type) where
  conn : Conn
  info : Info

abbrev Board (Key Conn Info : Type) := Table Key (List (Waiter Conn Info))

section Board

variable [DecidableEq Key] [DecidableEq Conn]

def waiters (board : Board Key Conn Info) (key : Key) : List (Waiter Conn Info) :=
  (board.lookup key).getD []

def others (conn : Conn) (bucket : List (Waiter Conn Info)) : List (Waiter Conn Info) :=
  bucket.filter fun waiter => waiter.conn ≠ conn

/-- A connection listed again takes the place of its old entry. -/
def post (board : Board Key Conn Info) (key : Key) (conn : Conn) (info : Info) :
    Board Key Conn Info :=
  board.insert key (others conn (waiters board key) ++ [⟨conn, info⟩])

/-- A key that nobody waits under is not kept. -/
def drop (board : Board Key Conn Info) (key : Key) (conn : Conn) : Board Key Conn Info :=
  match board.lookup key with
  | none => board
  | some bucket =>
      let left := others conn bucket
      if left.isEmpty then board.erase key else board.insert key left

theorem mem_others_iff (conn : Conn) (bucket : List (Waiter Conn Info)) (waiter : Waiter Conn Info) :
    waiter ∈ others conn bucket ↔ waiter ∈ bucket ∧ waiter.conn ≠ conn := by
  rw [others, List.mem_filter, decide_eq_true_eq]

theorem waiters_post_same (board : Board Key Conn Info) (key : Key) (conn : Conn) (info : Info) :
    waiters (post board key conn info) key = others conn (waiters board key) ++ [⟨conn, info⟩] := by
  rw [waiters, post, AList.lookup_insert, Option.getD_some]

theorem waiters_post_other (board : Board Key Conn Info) {key other : Key} (apart : other ≠ key)
    (conn : Conn) (info : Info) : waiters (post board key conn info) other = waiters board other := by
  rw [waiters, post, AList.lookup_insert_ne apart, waiters]

theorem waiters_drop_same (board : Board Key Conn Info) (key : Key) (conn : Conn) :
    waiters (drop board key conn) key = others conn (waiters board key) := by
  rw [waiters, drop, waiters]
  cases listed : board.lookup key with
  | none => rw [listed]
            rfl
  | some bucket =>
      dsimp only
      by_cases nobody : (others conn bucket).isEmpty = true
      · rw [if_pos nobody, AList.lookup_erase, Option.getD_some, List.isEmpty_iff.mp nobody]
        rfl
      · rw [if_neg nobody, AList.lookup_insert]
        rfl

theorem waiters_drop_other (board : Board Key Conn Info) {key other : Key} (apart : other ≠ key)
    (conn : Conn) : waiters (drop board key conn) other = waiters board other := by
  rw [waiters, drop, waiters]
  cases board.lookup key with
  | none => rfl
  | some bucket =>
      dsimp only
      split
      · rw [AList.lookup_erase_ne apart]
      · rw [AList.lookup_insert_ne apart]

theorem mem_post_iff (board : Board Key Conn Info) (key other : Key) (conn : Conn) (info : Info)
    (waiter : Waiter Conn Info) : waiter ∈ waiters (post board key conn info) other ↔
      (other = key ∧ waiter = ⟨conn, info⟩) ∨
        waiter ∈ waiters board other ∧ (other = key → waiter.conn ≠ conn) := by
  by_cases same : other = key
  · rw [same, waiters_post_same, List.mem_append, mem_others_iff, List.mem_singleton, or_comm]
    simp only [true_and, true_implies]
  · rw [waiters_post_other board same]
    simp only [same, false_and, false_or, false_implies, and_true]

theorem mem_drop_iff (board : Board Key Conn Info) (key other : Key) (conn : Conn)
    (waiter : Waiter Conn Info) : waiter ∈ waiters (drop board key conn) other ↔
      waiter ∈ waiters board other ∧ (other = key → waiter.conn ≠ conn) := by
  by_cases same : other = key
  · rw [same, waiters_drop_same, mem_others_iff]
    simp only [true_implies]
  · rw [waiters_drop_other board same]
    simp only [same, false_implies, and_true]

/-- No key is kept that nobody waits under. -/
def Tight (board : Board Key Conn Info) : Prop := ∀ key, board.lookup key ≠ some []

theorem tight_post {board : Board Key Conn Info} (tight : Tight board) (key : Key) (conn : Conn)
    (info : Info) : Tight (post board key conn info) := by
  intro other
  rw [post]
  by_cases same : other = key
  · rw [same, AList.lookup_insert]
    simp
  · rw [AList.lookup_insert_ne same]
    exact tight other

theorem tight_drop {board : Board Key Conn Info} (tight : Tight board) (key : Key) (conn : Conn) :
    Tight (drop board key conn) := by
  intro other
  rw [drop]
  cases board.lookup key with
  | none => exact tight other
  | some bucket =>
      dsimp only
      by_cases nobody : (others conn bucket).isEmpty = true
      · rw [if_pos nobody]
        by_cases same : other = key
        · rw [same, AList.lookup_erase]
          simp
        · rw [AList.lookup_erase_ne same]
          exact tight other
      · rw [if_neg nobody]
        by_cases same : other = key
        · rw [same, AList.lookup_insert]
          intro none
          exact nobody (List.isEmpty_iff.mpr (Option.some.inj none))
        · rw [AList.lookup_insert_ne same]
          exact tight other

end Board

/-! ## The tasks -/

/-- How far a task is. -/
inductive Phase (Key Conn Info : Type) where
  /-- Listed, and about to be told so. -/
  | announcing (key : Key)
  | holding (key : Key)
  | withdrawn (key : Key)
  /-- Could not be told; nobody takes the entry away any more. -/
  | unanswered (key : Key)
  /-- These are still to be tried; with none left the caller is to be told so. -/
  | calling (key : Key) (left : List (Waiter Conn Info))
  /-- There is a way to this one, and so many messages to write. -/
  | reached (key : Key) (waiter : Waiter Conn Info) (messages : Nat)
  | met (key : Key) (waiter : Waiter Conn Info)
  | refused (key : Key)
  | broken (key : Key)

structure Job (Key Conn Info : Type) where
  conn : Conn
  phase : Phase Key Conn Info

structure Point (Key Conn Info Task : Type) where
  board : Board Key Conn Info
  closed : Conn → Bool
  jobs : Task → Option (Job Key Conn Info)

inductive Event (Key Conn Task : Type) where
  | announce (task : Task) (conn : Conn) (key : Key)
  | call (task : Task) (conn : Conn) (key : Key)
  /-- The message a task is at is written, or cannot be. -/
  | wrote (task : Task) (success : Bool)
  /-- The way to the next waiter is opened, or its connection turns out to be closed. -/
  | opened (task : Task)
  | closes (conn : Conn)
  /-- A task that holds an entry learns that the connection is closed. -/
  | withdraws (task : Task)

section Tasks

variable [DecidableEq Key] [DecidableEq Conn] [DecidableEq Task]

-- How a connection is seen, and how many messages make a meeting.
variable (seen : Conn → Info) (messages : Nat)

def Point.set (point : Point Key Conn Info Task) (task : Task) (job : Job Key Conn Info) :
    Point Key Conn Info Task :=
  { point with jobs := Function.update point.jobs task (some job) }

/-- The phase after a write, where the task is at one. -/
def afterWrite (success : Bool) : Phase Key Conn Info → Option (Phase Key Conn Info)
  | .announcing key => some (if success then .holding key else .unanswered key)
  | .calling key [] => some (if success then .refused key else .broken key)
  | .reached key waiter (more + 1) =>
      some (if success then (if more = 0 then .met key waiter else .reached key waiter more)
        else .broken key)
  | _ => none

/-- An event that does not apply changes nothing. -/
def step (point : Point Key Conn Info Task) : Event Key Conn Task → Point Key Conn Info Task
  | .announce task conn key =>
      match point.jobs task with
      | some _ => point
      | none =>
          { point with board := post point.board key conn (seen conn) }.set task
            ⟨conn, .announcing key⟩
  | .call task conn key =>
      match point.jobs task with
      | some _ => point
      | none => point.set task ⟨conn, .calling key (waiters point.board key)⟩
  | .wrote task success =>
      match point.jobs task with
      | none => point
      | some job =>
          match afterWrite success job.phase with
          | none => point
          | some phase => point.set task ⟨job.conn, phase⟩
  | .opened task =>
      match point.jobs task with
      | some ⟨conn, .calling key (waiter :: left)⟩ =>
          if point.closed waiter.conn then
            { point with board := drop point.board key waiter.conn }.set task
              ⟨conn, .calling key left⟩
          else point.set task ⟨conn, .reached key waiter messages⟩
      | _ => point
  | .closes conn => { point with closed := Function.update point.closed conn true }
  | .withdraws task =>
      match point.jobs task with
      | some ⟨conn, .holding key⟩ =>
          if point.closed conn then
            { point with board := drop point.board key conn }.set task ⟨conn, .withdrawn key⟩
          else point
      | _ => point

def Point.start : Point Key Conn Info Task := ⟨∅, fun _ => false, fun _ => none⟩

/-- The ways a step can change a point. -/
inductive Moved (point : Point Key Conn Info Task) : Point Key Conn Info Task → Prop where
  | same : Moved point point
  | closes (conn : Conn) : Moved point { point with closed := Function.update point.closed conn true }
  | announced (task : Task) (conn : Conn) (key : Key) (fresh : point.jobs task = none) :
      Moved point ({ point with board := post point.board key conn (seen conn) }.set task
        ⟨conn, .announcing key⟩)
  | called (task : Task) (conn : Conn) (key : Key) (fresh : point.jobs task = none) :
      Moved point (point.set task ⟨conn, .calling key (waiters point.board key)⟩)
  | wrote (task : Task) (success : Bool) (conn : Conn) (before after : Phase Key Conn Info)
      (was : point.jobs task = some ⟨conn, before⟩)
      (moves : afterWrite success before = some after) : Moved point (point.set task ⟨conn, after⟩)
  | passed (task : Task) (conn : Conn) (key : Key) (waiter : Waiter Conn Info)
      (left : List (Waiter Conn Info))
      (was : point.jobs task = some ⟨conn, .calling key (waiter :: left)⟩)
      (gone : point.closed waiter.conn = true) :
      Moved point ({ point with board := drop point.board key waiter.conn }.set task
        ⟨conn, .calling key left⟩)
  | reached (task : Task) (conn : Conn) (key : Key) (waiter : Waiter Conn Info)
      (left : List (Waiter Conn Info))
      (was : point.jobs task = some ⟨conn, .calling key (waiter :: left)⟩) :
      Moved point (point.set task ⟨conn, .reached key waiter messages⟩)
  | withdrew (task : Task) (conn : Conn) (key : Key)
      (was : point.jobs task = some ⟨conn, .holding key⟩) (gone : point.closed conn = true) :
      Moved point ({ point with board := drop point.board key conn }.set task
        ⟨conn, .withdrawn key⟩)

theorem step_moved (point : Point Key Conn Info Task) (event : Event Key Conn Task) :
    Moved seen messages point (step seen messages point event) := by
  cases event with
  | announce task conn key =>
      rw [step]
      cases was : point.jobs task with
      | some job => exact .same
      | none => exact .announced task conn key was
  | call task conn key =>
      rw [step]
      cases was : point.jobs task with
      | some job => exact .same
      | none => exact .called task conn key was
  | wrote task success =>
      rw [step]
      cases was : point.jobs task with
      | none => exact .same
      | some job =>
          dsimp only
          cases moves : afterWrite success job.phase with
          | none => exact .same
          | some after => exact .wrote task success job.conn job.phase after was moves
  | opened task =>
      rw [step]
      split
      case h_1 conn key waiter left was =>
        by_cases gone : point.closed waiter.conn = true
        · rw [if_pos gone]
          exact .passed task conn key waiter left was gone
        · rw [if_neg gone]
          exact .reached task conn key waiter left was
      case h_2 => exact .same
  | closes conn => exact .closes conn
  | withdraws task =>
      rw [step]
      split
      case h_1 conn key was =>
        by_cases gone : point.closed conn = true
        · rw [if_pos gone]
          exact .withdrew task conn key was gone
        · rw [if_neg gone]
          exact .same
      case h_2 => exact .same

/-! ### What a task is for -/

inductive Role (Key : Type) where
  | waits (key : Key)
  | calls (key : Key)

omit [DecidableEq Key] [DecidableEq Conn] [DecidableEq Task]

def Phase.role : Phase Key Conn Info → Role Key
  | .announcing key => .waits key
  | .holding key => .waits key
  | .withdrawn key => .waits key
  | .unanswered key => .waits key
  | .calling key _ => .calls key
  | .reached key _ _ => .calls key
  | .met key _ => .calls key
  | .refused key => .calls key
  | .broken key => .calls key

/-- The key under which a task has listed its connection and not withdrawn it. -/
def Phase.lists : Phase Key Conn Info → Option Key
  | .announcing key => some key
  | .holding key => some key
  | .unanswered key => some key
  | _ => none

/-- Those a caller may yet meet, or has met. -/
def Phase.chosen : Phase Key Conn Info → List (Waiter Conn Info)
  | .calling _ left => left
  | .reached _ waiter _ => [waiter]
  | .met _ waiter => [waiter]
  | _ => []

theorem role_of_lists {phase : Phase Key Conn Info} {key : Key} (lists : phase.lists = some key) :
    phase.role = .waits key := by
  cases phase <;> cases lists <;> rfl

theorem after_write_keeps {success : Bool} {before after : Phase Key Conn Info}
    (moves : afterWrite success before = some after) :
    after.role = before.role ∧ after.lists = before.lists ∧ after.chosen ⊆ before.chosen := by
  cases before with
  | announcing key => cases success <;> cases moves <;> exact ⟨rfl, rfl, List.Subset.refl _⟩
  | calling key left =>
      cases left with
      | nil => cases success <;> cases moves <;> exact ⟨rfl, rfl, List.Subset.refl _⟩
      | cons waiter left => cases moves
  | reached key waiter messages =>
      cases messages with
      | zero => cases moves
      | succ more =>
          rw [afterWrite] at moves
          cases success with
          | false => cases moves
                     exact ⟨rfl, rfl, List.nil_subset _⟩
          | true =>
              by_cases last : more = 0
              · rw [if_pos rfl, if_pos last] at moves
                cases moves
                exact ⟨rfl, rfl, List.Subset.refl _⟩
              · rw [if_pos rfl, if_neg last] at moves
                cases moves
                exact ⟨rfl, rfl, List.Subset.refl _⟩
  | holding key => cases moves
  | withdrawn key => cases moves
  | unanswered key => cases moves
  | met key waiter => cases moves
  | refused key => cases moves
  | broken key => cases moves

theorem after_write_stays {success : Bool} {before after : Phase Key Conn Info}
    (moves : afterWrite success before = some after) (key : Key) : after ≠ .withdrawn key := by
  intro withdrawn
  rw [withdrawn] at moves
  obtain ⟨role, lists, _⟩ := after_write_keeps moves
  cases before with
  | announcing key => cases lists
  | holding key => cases lists
  | unanswered key => cases lists
  | withdrawn key => cases moves
  | calling key left => cases role
  | reached key waiter left => cases role
  | met key waiter => cases role
  | refused key => cases role
  | broken key => cases role

/-- Tasks stay what they are for, and connections that are closed stay closed. -/
structure Later (before after : Point Key Conn Info Task) : Prop where
  jobs : ∀ task job, before.jobs task = some job → ∃ later, after.jobs task = some later ∧
    later.conn = job.conn ∧ later.phase.role = job.phase.role
  closed : ∀ conn, before.closed conn = true → after.closed conn = true

theorem Later.refl (point : Point Key Conn Info Task) : Later point point :=
  ⟨fun _ job found => ⟨job, found, rfl, rfl⟩, fun _ gone => gone⟩

theorem Later.trans (first second third : Point Key Conn Info Task) (early : Later first second)
    (late : Later second third) : Later first third := by
  constructor
  · intro task job found
    obtain ⟨next, there, conn, role⟩ := early.jobs task job found
    obtain ⟨last, end_, sameConn, sameRole⟩ := late.jobs task next there
    exact ⟨last, end_, sameConn.trans conn, sameRole.trans role⟩
  · intro conn gone
    exact late.closed conn (early.closed conn gone)

end Tasks

section Runs

variable [DecidableEq Key] [DecidableEq Conn] [DecidableEq Task]
variable (seen : Conn → Info) (messages : Nat)

omit [DecidableEq Key] [DecidableEq Conn] in
theorem jobs_set (point : Point Key Conn Info Task) (task other : Task)
    (job : Job Key Conn Info) :
    (point.set task job).jobs other = if other = task then some job else point.jobs other :=
  Function.update_apply point.jobs task (some job) other

/-- The task whose event it is. -/
def Event.of : Event Key Conn Task → Option Task
  | .announce task _ _ => some task
  | .call task _ _ => some task
  | .wrote task _ => some task
  | .opened task => some task
  | .closes _ => none
  | .withdraws task => some task

/-- An event is nothing to the tasks it is not of. -/
theorem jobs_elsewhere (point : Point Key Conn Info Task) (event : Event Key Conn Task)
    (task : Task) (other : event.of ≠ some task) :
    (step seen messages point event).jobs task = point.jobs task := by
  have apart : ∀ owner, event.of = some owner → task ≠ owner :=
    fun owner mine same => other (mine.trans (congrArg some same.symm))
  cases event with
  | announce owner conn key =>
      rw [step]
      cases point.jobs owner with
      | some job => rfl
      | none => exact (jobs_set _ owner task _).trans (if_neg (apart owner rfl))
  | call owner conn key =>
      rw [step]
      cases point.jobs owner with
      | some job => rfl
      | none => exact (jobs_set _ owner task _).trans (if_neg (apart owner rfl))
  | wrote owner success =>
      rw [step]
      cases point.jobs owner with
      | none => rfl
      | some job =>
          dsimp only
          cases afterWrite success job.phase with
          | none => rfl
          | some after => exact (jobs_set _ owner task _).trans (if_neg (apart owner rfl))
  | opened owner =>
      rw [step]
      split
      · split <;> exact (jobs_set _ owner task _).trans (if_neg (apart owner rfl))
      · rfl
  | closes conn => rfl
  | withdraws owner =>
      rw [step]
      split
      · split
        · exact (jobs_set _ owner task _).trans (if_neg (apart owner rfl))
        · rfl
      · rfl

theorem jobs_announce {point : Point Key Conn Info Task} {task : Task}
    (fresh : point.jobs task = none) (conn : Conn) (key : Key) :
    (step seen messages point (.announce task conn key)).jobs task =
      some ⟨conn, .announcing key⟩ := by
  rw [step, fresh]
  exact (jobs_set _ task task _).trans (if_pos rfl)

theorem jobs_call {point : Point Key Conn Info Task} {task : Task}
    (fresh : point.jobs task = none) (conn : Conn) (key : Key) :
    (step seen messages point (.call task conn key)).jobs task =
      some ⟨conn, .calling key (waiters point.board key)⟩ := by
  rw [step, fresh]
  exact (jobs_set _ task task _).trans (if_pos rfl)

theorem jobs_wrote {point : Point Key Conn Info Task} {task : Task} {conn : Conn}
    {before after : Phase Key Conn Info} {success : Bool}
    (was : point.jobs task = some ⟨conn, before⟩) (moves : afterWrite success before = some after) :
    (step seen messages point (.wrote task success)).jobs task = some ⟨conn, after⟩ := by
  rw [step, was]
  dsimp only
  rw [moves]
  exact (jobs_set _ task task _).trans (if_pos rfl)

theorem jobs_opened {point : Point Key Conn Info Task} {task : Task} {conn : Conn} {key : Key}
    {waiter : Waiter Conn Info} {left : List (Waiter Conn Info)}
    (was : point.jobs task = some ⟨conn, .calling key (waiter :: left)⟩) :
    (step seen messages point (.opened task)).jobs task =
      some ⟨conn, if point.closed waiter.conn then .calling key left
        else .reached key waiter messages⟩ := by
  rw [step, was]
  dsimp only
  split <;> exact (jobs_set _ task task _).trans (if_pos rfl)

theorem jobs_withdraws (point : Point Key Conn Info Task) (task : Task) :
    (step seen messages point (.withdraws task)).jobs task = point.jobs task ∨
      ∃ conn key, point.jobs task = some ⟨conn, .holding key⟩ ∧
        (step seen messages point (.withdraws task)).jobs task = some ⟨conn, .withdrawn key⟩ := by
  rw [step]
  split
  case h_1 conn key was =>
    split
    · exact .inr ⟨conn, key, was, (jobs_set _ task task _).trans (if_pos rfl)⟩
    · exact .inl rfl
  case h_2 => exact .inl rfl

omit [DecidableEq Key] [DecidableEq Conn] in
theorem later_set {point : Point Key Conn Info Task} (board : Board Key Conn Info) (task : Task)
    (job : Job Key Conn Info)
    (same : ∀ old, point.jobs task = some old →
      job.conn = old.conn ∧ job.phase.role = old.phase.role) :
    Later point ({ point with board := board }.set task job) := by
  constructor
  · intro other old found
    rw [jobs_set]
    by_cases this : other = task
    · rw [if_pos this]
      rw [this] at found
      exact ⟨job, rfl, same old found⟩
    · rw [if_neg this]
      exact ⟨old, found, rfl, rfl⟩
  · exact fun conn gone => gone

omit [DecidableEq Key] [DecidableEq Conn] in
theorem later_fresh {point : Point Key Conn Info Task} (board : Board Key Conn Info) {task : Task}
    (job : Job Key Conn Info) (fresh : point.jobs task = none) :
    Later point ({ point with board := board }.set task job) := by
  refine later_set board task job ?_
  intro old found
  rw [fresh] at found
  cases found

omit [DecidableEq Key] [DecidableEq Conn] in
theorem later_was {point : Point Key Conn Info Task} (board : Board Key Conn Info) {task : Task}
    {conn : Conn} {before after : Phase Key Conn Info}
    (was : point.jobs task = some ⟨conn, before⟩) (role : after.role = before.role) :
    Later point ({ point with board := board }.set task ⟨conn, after⟩) := by
  refine later_set board task ⟨conn, after⟩ ?_
  intro old found
  rw [was] at found
  cases found
  exact ⟨rfl, role⟩

theorem still_closed (closed : Conn → Bool) (conn : Conn) {other : Conn}
    (gone : closed other = true) : Function.update closed conn true other = true := by
  by_cases this : other = conn
  · rw [this, Function.update_self]
  · rw [Function.update_of_ne this]
    exact gone

theorem later_moved {point after : Point Key Conn Info Task}
    (moved : Moved seen messages point after) : Later point after := by
  cases moved with
  | same => exact Later.refl point
  | closes conn =>
      exact ⟨(Later.refl point).jobs, fun other gone => still_closed point.closed conn gone⟩
  | announced task conn key fresh => exact later_fresh _ _ fresh
  | called task conn key fresh => exact later_fresh point.board _ fresh
  | wrote task success conn before after was moves =>
      exact later_was point.board was (after_write_keeps moves).1
  | passed task conn key waiter left was gone => exact later_was _ was rfl
  | reached task conn key waiter left was => exact later_was point.board was rfl
  | withdrew task conn key was gone => exact later_was _ was rfl

theorem later_step (point : Point Key Conn Info Task) (event : Event Key Conn Task) :
    Later point (step seen messages point event) :=
  later_moved seen messages (step_moved seen messages point event)

theorem later_run (point : Point Key Conn Info Task) (events : List (Event Key Conn Task)) :
    Later point (run (step seen messages) point events) :=
  run_relates (step seen messages) Later Later.refl Later.trans (later_step seen messages) point
    events

/-! ### Who is listed -/

/-- A task for the connection came to be found under the key. -/
def Announced (point : Point Key Conn Info Task) (key : Key) (waiter : Waiter Conn Info) : Prop :=
  waiter.info = seen waiter.conn ∧ ∃ task job, point.jobs task = some job ∧
    job.conn = waiter.conn ∧ job.phase.role = .waits key

omit [DecidableEq Key] [DecidableEq Conn] [DecidableEq Task] in
theorem announced_later {before after : Point Key Conn Info Task} (later : Later before after)
    {key : Key} {waiter : Waiter Conn Info} (announced : Announced seen before key waiter) :
    Announced seen after key waiter := by
  obtain ⟨info, task, job, found, conn, role⟩ := announced
  obtain ⟨next, there, sameConn, sameRole⟩ := later.jobs task job found
  exact ⟨info, task, next, there, sameConn.trans conn, sameRole.trans role⟩

structure Sound (point : Point Key Conn Info Task) : Prop where
  tight : Tight point.board
  /-- A listed connection has a task that would take it away again. -/
  listed : ∀ key waiter, waiter ∈ waiters point.board key → waiter.info = seen waiter.conn ∧
    ∃ task phase, point.jobs task = some ⟨waiter.conn, phase⟩ ∧ phase.lists = some key
  /-- An open connection is not taken away. -/
  present : ∀ task conn phase key, point.jobs task = some ⟨conn, phase⟩ →
    phase.lists = some key → point.closed conn = false →
      ⟨conn, seen conn⟩ ∈ waiters point.board key
  chosen : ∀ task conn phase key waiter, point.jobs task = some ⟨conn, phase⟩ →
    phase.role = .calls key → waiter ∈ phase.chosen → Announced seen point key waiter
  gone : ∀ task conn key, point.jobs task = some ⟨conn, .withdrawn key⟩ →
    point.closed conn = true

omit [DecidableEq Conn] [DecidableEq Task] in
theorem announced_of_listed {point : Point Key Conn Info Task} (sound : Sound seen point)
    {key : Key} {waiter : Waiter Conn Info} (listed : waiter ∈ waiters point.board key) :
    Announced seen point key waiter := by
  obtain ⟨info, task, phase, found, lists⟩ := sound.listed key waiter listed
  exact ⟨info, task, _, found, rfl, role_of_lists lists⟩

omit [DecidableEq Conn] [DecidableEq Task] in
theorem sound_start : Sound seen (Point.start : Point Key Conn Info Task) where
  tight := by
    intro key none
    cases none
  listed := by
    intro key waiter none
    cases none
  present := by
    intro task conn phase key none
    cases none
  chosen := by
    intro task conn phase key waiter none
    cases none
  gone := by
    intro task conn key none
    cases none

omit [DecidableEq Conn] in
/-- A task moves on and the board changes by its own entry or by closed ones. -/
theorem sound_set {point : Point Key Conn Info Task} (sound : Sound seen point)
    {board : Board Key Conn Info} {task : Task} {conn : Conn} {after : Phase Key Conn Info}
    (later : Later point ({ point with board := board }.set task ⟨conn, after⟩))
    (tight : Tight board)
    (listed : ∀ key waiter, waiter ∈ waiters board key →
      (waiter = ⟨conn, seen conn⟩ ∧ after.lists = some key) ∨
        (waiter ∈ waiters point.board key ∧ ∀ old, point.jobs task = some old →
          old.phase.lists = some key → waiter.conn = conn → after.lists = some key))
    (present : ∀ key waiter, waiter ∈ waiters point.board key →
      point.closed waiter.conn = false → waiter.info = seen waiter.conn → waiter ∈ waiters board key)
    (own : ∀ key, after.lists = some key → point.closed conn = false →
      ⟨conn, seen conn⟩ ∈ waiters board key)
    (chosen : ∀ key waiter, after.role = .calls key → waiter ∈ after.chosen →
      Announced seen point key waiter)
    (gone : ∀ key, after = .withdrawn key → point.closed conn = true) :
    Sound seen ({ point with board := board }.set task ⟨conn, after⟩) := by
  refine ⟨tight, ?_, ?_, ?_, ?_⟩
  · intro key waiter there
    rcases listed key waiter there with ⟨new, lists⟩ | ⟨old, goesOn⟩
    · rw [new]
      exact ⟨rfl, task, after, (jobs_set _ task task _).trans (if_pos rfl), lists⟩
    · obtain ⟨info, owner, phase, found, lists⟩ := sound.listed key waiter old
      refine ⟨info, owner, ?_⟩
      rw [jobs_set]
      by_cases this : owner = task
      · rw [this] at found
        obtain ⟨job, there, sameConn, _⟩ := later.jobs task _ found
        rw [jobs_set, if_pos rfl] at there
        cases there
        rw [if_pos this]
        have named : conn = waiter.conn := sameConn
        refine ⟨after, ?_, goesOn _ found lists named.symm⟩
        rw [named]
      · rw [if_neg this]
        exact ⟨phase, found, lists⟩
  · intro other otherConn phase key found lists isOpen
    rw [jobs_set] at found
    by_cases this : other = task
    · rw [if_pos this] at found
      cases found
      exact own key lists isOpen
    · rw [if_neg this] at found
      exact present key _ (sound.present other otherConn phase key found lists isOpen) isOpen rfl
  · intro other otherConn phase key waiter found role member
    refine announced_later seen later ?_
    rw [jobs_set] at found
    by_cases this : other = task
    · rw [if_pos this] at found
      cases found
      exact chosen key waiter role member
    · rw [if_neg this] at found
      exact sound.chosen other otherConn phase key waiter found role member
  · intro other otherConn key found
    rw [jobs_set] at found
    by_cases this : other = task
    · rw [if_pos this] at found
      cases found
      exact gone key rfl
    · rw [if_neg this] at found
      exact sound.gone other otherConn key found

omit [DecidableEq Conn] in
/-- A task that moves on and leaves the board. -/
theorem sound_moves {point : Point Key Conn Info Task} (sound : Sound seen point) {task : Task}
    {conn : Conn} {before after : Phase Key Conn Info}
    (was : point.jobs task = some ⟨conn, before⟩) (role : after.role = before.role)
    (lists : after.lists = before.lists) (chosen : after.chosen ⊆ before.chosen)
    (stays : ∀ key, after ≠ .withdrawn key) : Sound seen (point.set task ⟨conn, after⟩) := by
  refine sound_set seen sound (later_was point.board was role) sound.tight ?_ ?_ ?_ ?_ ?_
  · intro key waiter there
    refine .inr ⟨there, ?_⟩
    intro old found listed _
    rw [was] at found
    cases found
    rw [lists]
    exact listed
  · exact fun key waiter there _ _ => there
  · intro key listed isOpen
    rw [lists] at listed
    exact sound.present task conn before key was listed isOpen
  · intro key waiter calls member
    exact sound.chosen task conn before key waiter was (role.symm.trans calls) (chosen member)
  · exact fun key withdrawn => absurd withdrawn (stays key)

theorem sound_moved {point after : Point Key Conn Info Task} (sound : Sound seen point)
    (moved : Moved seen messages point after) : Sound seen after := by
  have later := later_moved seen messages moved
  cases moved with
  | same => exact sound
  | closes conn =>
      refine ⟨sound.tight, sound.listed, ?_, sound.chosen, ?_⟩
      case refine_2 =>
        intro task other key found
        exact still_closed point.closed conn (sound.gone task other key found)
      intro task other phase key found lists isOpen
      refine sound.present task other phase key found lists ?_
      cases was : point.closed other with
      | false => rfl
      | true => exact absurd ((still_closed point.closed conn was).symm.trans isOpen) (by decide)
  | announced task conn key fresh =>
      refine sound_set seen sound later (tight_post sound.tight key conn _) ?_ ?_ ?_ ?_ ?_
      · intro other waiter there
        rcases (mem_post_iff point.board key other conn (seen conn) waiter).mp there with
          ⟨same, new⟩ | ⟨old, _⟩
        · exact .inl ⟨new, congrArg some same.symm⟩
        · refine .inr ⟨old, ?_⟩
          intro job found
          rw [fresh] at found
          cases found
      · intro other waiter there _ info
        refine (mem_post_iff point.board key other conn (seen conn) waiter).mpr ?_
        by_cases own : other = key ∧ waiter.conn = conn
        · refine .inl ⟨own.1, ?_⟩
          rw [← own.2, ← info]
        · exact .inr ⟨there, fun same this => own ⟨same, this⟩⟩
      · intro other lists _
        cases lists
        exact (mem_post_iff point.board key key conn (seen conn) _).mpr (.inl ⟨rfl, rfl⟩)
      · intro other waiter calls
        cases calls
      · intro other withdrawn
        cases withdrawn
  | called task conn key fresh =>
      refine sound_set seen sound later sound.tight ?_ ?_ ?_ ?_ ?_
      · intro other waiter there
        refine .inr ⟨there, ?_⟩
        intro job found
        rw [fresh] at found
        cases found
      · exact fun other waiter there _ _ => there
      · intro other lists
        cases lists
      · intro other waiter calls member
        cases calls
        exact announced_of_listed seen sound member
      · intro other withdrawn
        cases withdrawn
  | wrote task success conn before after was moves =>
      obtain ⟨role, lists, chosen⟩ := after_write_keeps moves
      exact sound_moves seen sound was role lists chosen (after_write_stays moves)
  | passed task conn key waiter left was gone =>
      refine sound_set seen sound later (tight_drop sound.tight key waiter.conn) ?_ ?_ ?_ ?_ ?_
      · intro other listed there
        refine .inr ⟨((mem_drop_iff point.board key other waiter.conn listed).mp there).1, ?_⟩
        intro job found lists
        rw [was] at found
        cases found
        cases lists
      · intro other listed there isOpen _
        refine (mem_drop_iff point.board key other waiter.conn listed).mpr ⟨there, ?_⟩
        intro _ this
        rw [this, gone] at isOpen
        cases isOpen
      · intro other lists
        cases lists
      · intro other chosen calls member
        exact sound.chosen task conn _ other chosen was calls (List.mem_cons_of_mem _ member)
      · intro other withdrawn
        cases withdrawn
  | reached task conn key waiter left was =>
      refine sound_moves seen sound was rfl rfl ?_ ?_
      · intro other member
        rw [List.mem_singleton.mp member]
        exact List.mem_cons_self
      · intro other withdrawn
        cases withdrawn
  | withdrew task conn key was gone =>
      refine sound_set seen sound later (tight_drop sound.tight key conn) ?_ ?_ ?_ ?_ ?_
      · intro other listed there
        have kept := (mem_drop_iff point.board key other conn listed).mp there
        refine .inr ⟨kept.1, ?_⟩
        intro job found lists this
        rw [was] at found
        cases found
        cases lists
        exact absurd this (kept.2 rfl)
      · intro other listed there isOpen _
        refine (mem_drop_iff point.board key other conn listed).mpr ⟨there, ?_⟩
        intro _ this
        rw [this, gone] at isOpen
        cases isOpen
      · intro other lists
        cases lists
      · intro other waiter calls
        cases calls
      · exact fun other _ => gone

/-! ### What a caller comes to -/

/-- Those listed when a caller came are tried in turn, and passed over when they are closed. -/
def Tried (listed : List (Waiter Conn Info)) (closed : Conn → Bool) :
    Phase Key Conn Info → Prop
  | .calling _ left => ∃ passed, listed = passed ++ left ∧
      ∀ waiter ∈ passed, closed waiter.conn = true
  | .reached _ waiter _ => ∃ passed left, listed = passed ++ waiter :: left ∧
      ∀ waiter ∈ passed, closed waiter.conn = true
  | .met _ waiter => ∃ passed left, listed = passed ++ waiter :: left ∧
      ∀ waiter ∈ passed, closed waiter.conn = true
  | .refused _ => ∀ waiter ∈ listed, closed waiter.conn = true
  | _ => True

omit [DecidableEq Key] [DecidableEq Conn] [DecidableEq Task] in
theorem tried_later {listed : List (Waiter Conn Info)} {before after : Conn → Bool}
    (stays : ∀ conn, before conn = true → after conn = true) {phase : Phase Key Conn Info}
    (tried : Tried listed before phase) : Tried listed after phase := by
  cases phase with
  | calling key left =>
      obtain ⟨passed, split, gone⟩ := tried
      exact ⟨passed, split, fun waiter member => stays _ (gone waiter member)⟩
  | reached key waiter messages =>
      obtain ⟨passed, left, split, gone⟩ := tried
      exact ⟨passed, left, split, fun other member => stays _ (gone other member)⟩
  | met key waiter =>
      obtain ⟨passed, left, split, gone⟩ := tried
      exact ⟨passed, left, split, fun other member => stays _ (gone other member)⟩
  | refused key => exact fun waiter member => stays _ (tried waiter member)
  | announcing key => exact trivial
  | holding key => exact trivial
  | withdrawn key => exact trivial
  | unanswered key => exact trivial
  | broken key => exact trivial

omit [DecidableEq Key] [DecidableEq Conn] [DecidableEq Task] in
theorem tried_after_write {listed : List (Waiter Conn Info)} {closed : Conn → Bool}
    {success : Bool} {before after : Phase Key Conn Info}
    (moves : afterWrite success before = some after) (tried : Tried listed closed before) :
    Tried listed closed after := by
  cases before with
  | announcing key => cases success <;> cases moves <;> exact trivial
  | calling key left =>
      cases left with
      | cons waiter left => cases moves
      | nil =>
          cases success with
          | false =>
              cases moves
              exact trivial
          | true =>
              cases moves
              obtain ⟨passed, split, gone⟩ := tried
              rw [List.append_nil] at split
              rw [split]
              exact gone
  | reached key waiter messages =>
      cases messages with
      | zero => cases moves
      | succ more =>
          rw [afterWrite] at moves
          cases success with
          | false =>
              cases moves
              exact trivial
          | true =>
              rw [if_pos rfl] at moves
              cases moves
              split <;> exact tried
  | holding key => cases moves
  | withdrawn key => cases moves
  | unanswered key => cases moves
  | met key waiter => cases moves
  | refused key => cases moves
  | broken key => cases moves

def Tracks (listed : List (Waiter Conn Info)) (task : Task) (point : Point Key Conn Info Task) :
    Prop :=
  ∃ conn phase, point.jobs task = some ⟨conn, phase⟩ ∧ Tried listed point.closed phase

omit [DecidableEq Key] [DecidableEq Conn] in
theorem tracks_set {listed : List (Waiter Conn Info)} {task other : Task}
    {point : Point Key Conn Info Task} (board : Board Key Conn Info)
    (tracks : Tracks listed task point) {job : Job Key Conn Info}
    (own : ∀ old, point.jobs other = some old → Tried listed point.closed old.phase →
      Tried listed point.closed job.phase) :
    Tracks listed task ({ point with board := board }.set other job) := by
  obtain ⟨conn, phase, found, tried⟩ := tracks
  rw [Tracks, jobs_set]
  by_cases this : task = other
  · rw [if_pos this]
    rw [this] at found
    exact ⟨job.conn, job.phase, rfl, own _ found tried⟩
  · rw [if_neg this]
    exact ⟨conn, phase, found, tried⟩

theorem tracks_moved {listed : List (Waiter Conn Info)} {task : Task}
    {point after : Point Key Conn Info Task} (tracks : Tracks listed task point)
    (moved : Moved seen messages point after) : Tracks listed task after := by
  cases moved with
  | same => exact tracks
  | closes conn =>
      obtain ⟨other, phase, found, tried⟩ := tracks
      exact ⟨other, phase, found,
        tried_later (fun other gone => still_closed point.closed conn gone) tried⟩
  | announced other conn key fresh =>
      refine tracks_set _ tracks ?_
      intro old found
      rw [fresh] at found
      cases found
  | called other conn key fresh =>
      refine tracks_set point.board tracks ?_
      intro old found
      rw [fresh] at found
      cases found
  | wrote other success conn before after was moves =>
      refine tracks_set point.board tracks ?_
      intro old found tried
      rw [was] at found
      cases found
      exact tried_after_write moves tried
  | passed other conn key waiter left was gone =>
      refine tracks_set _ tracks ?_
      intro old found tried
      rw [was] at found
      cases found
      obtain ⟨passed, split, all⟩ := tried
      refine ⟨passed ++ [waiter], split.trans (List.append_cons passed waiter left), ?_⟩
      intro other member
      rcases List.mem_append.mp member with before | last
      · exact all other before
      · rw [List.mem_singleton.mp last]
        exact gone
  | reached other conn key waiter left was =>
      refine tracks_set point.board tracks ?_
      intro old found tried
      rw [was] at found
      cases found
      obtain ⟨passed, split, all⟩ := tried
      exact ⟨passed, left, split, all⟩
  | withdrew other conn key was gone =>
      refine tracks_set _ tracks ?_
      intro old found tried
      rw [was] at found
      cases found
      exact trivial

/-- From a call on, those who were listed then are tried. -/
theorem tracks_call (point : Point Key Conn Info Task) {task : Task} (fresh : point.jobs task = none)
    (conn : Conn) (key : Key) (later : List (Event Key Conn Task)) :
    Tracks (waiters point.board key) task
      (run (step seen messages) point (.call task conn key :: later)) := by
  have began : Tracks (waiters point.board key) task
      (step seen messages point (.call task conn key)) := by
    rw [step, fresh]
    refine ⟨conn, .calling key (waiters point.board key), ?_, ?_⟩
    · exact (jobs_set point task task _).trans (if_pos rfl)
    · refine ⟨[], rfl, ?_⟩
      intro waiter none
      cases none
  exact run_invariant (step seen messages) (Tracks (waiters point.board key) task)
    (fun point event tracks => tracks_moved seen messages tracks (step_moved seen messages point event))
    _ later began

/-! ### A machine with a point inside -/

/-- The event of a task's beginning. -/
def Role.enter (task : Task) (conn : Conn) : Role Key → Event Key Conn Task
  | .waits key => .announce task conn key
  | .calls key => .call task conn key

omit [DecidableEq Key] [DecidableEq Conn] [DecidableEq Task] in
theorem enter_injective {task other : Task} {conn otherConn : Conn} {role otherRole : Role Key}
    (same : role.enter task conn = otherRole.enter other otherConn) :
    role = otherRole ∧ task = other ∧ conn = otherConn := by
  cases role <;> cases otherRole <;> cases same <;> exact ⟨rfl, rfl, rfl⟩

omit [DecidableEq Key] [DecidableEq Conn] [DecidableEq Task] in
theorem enter_ne_wrote {task other : Task} {conn : Conn} {role : Role Key} {success : Bool} :
    role.enter task conn ≠ .wrote other success := by
  intro same
  cases role <;> cases same

/-- A new task is for what its first event says. -/
theorem job_of_new {point : Point Key Conn Info Task} {event : Event Key Conn Task} {task : Task}
    {job : Job Key Conn Info} (fresh : point.jobs task = none)
    (there : (step seen messages point event).jobs task = some job) :
    event = job.phase.role.enter task job.conn := by
  have own : event.of = some task := by
    by_contra other
    rw [jobs_elsewhere seen messages point event task other, fresh] at there
    cases there
  cases event with
  | announce owner conn key =>
      cases own
      rw [jobs_announce seen messages fresh conn key] at there
      cases there
      rfl
  | call owner conn key =>
      cases own
      rw [jobs_call seen messages fresh conn key] at there
      cases there
      rfl
  | wrote owner success =>
      cases own
      rw [step, fresh] at there
      exact absurd (fresh.symm.trans there) (Option.some_ne_none job).symm
  | opened owner =>
      cases own
      rw [step, fresh] at there
      exact absurd (fresh.symm.trans there) (Option.some_ne_none job).symm
  | closes conn => cases own
  | withdraws owner =>
      cases own
      rw [step, fresh] at there
      exact absurd (fresh.symm.trans there) (Option.some_ne_none job).symm

theorem enter_taken {point : Point Key Conn Info Task} {task : Task} {job : Job Key Conn Info}
    (taken : point.jobs task = some job) (role : Role Key) (conn : Conn) :
    step seen messages point (role.enter task conn) = point := by
  cases role with
  | waits key => rw [Role.enter, step, taken]
  | calls key => rw [Role.enter, step, taken]

section Hosts

variable {State Action : Type} {act : State → Action → State}
variable {desk : State → Point Key Conn Info Task}
variable {event : State → Action → Option (Event Key Conn Task)}

/-- Every action of the machine is one event of its point, or none. -/
def Hosts (act : State → Action → State) (desk : State → Point Key Conn Info Task)
    (event : State → Action → Option (Event Key Conn Task)) : Prop :=
  ∀ state action, desk (act state action) =
    (event state action).elim (desk state) (step seen messages (desk state))

variable {seen messages}

theorem hosted_run (hosts : Hosts seen messages act desk event) (state : State)
    (actions : List Action) : ∃ events, desk (run act state actions) =
      run (step seen messages) (desk state) events := by
  induction actions generalizing state with
  | nil => exact ⟨[], rfl⟩
  | cons action rest ih =>
      obtain ⟨later, last⟩ := ih (act state action)
      have now := hosts state action
      rw [run_cons, last]
      cases taken : event state action with
      | none =>
          rw [taken] at now
          exact ⟨later, congrArg (fun point => run (step seen messages) point later) now⟩
      | some first =>
          rw [taken] at now
          exact ⟨first :: later, congrArg (fun point => run (step seen messages) point later) now⟩

theorem hosted_later (hosts : Hosts seen messages act desk event) (state : State)
    (actions : List Action) : Later (desk state) (desk (run act state actions)) := by
  obtain ⟨events, same⟩ := hosted_run hosts state actions
  rw [same]
  exact later_run seen messages (desk state) events

theorem hosted_sound_step (hosts : Hosts seen messages act desk event) {state : State}
    (sound : Sound seen (desk state)) (action : Action) : Sound seen (desk (act state action)) := by
  have now := hosts state action
  cases taken : event state action with
  | none =>
      rw [taken, Option.elim_none] at now
      rwa [now]
  | some first =>
      rw [taken, Option.elim_some] at now
      rw [now]
      exact sound_moved seen messages sound (step_moved seen messages (desk state) first)

theorem hosted_sound (hosts : Hosts seen messages act desk event) {start : State}
    (empty : desk start = Point.start) (actions : List Action) :
    Sound seen (desk (run act start actions)) := by
  refine run_invariant act (fun state => Sound seen (desk state)) ?_ start actions ?_
  · exact fun state action sound => hosted_sound_step hosts sound action
  · rw [empty]
    exact sound_start seen

/-- Every task began with an action that says what it is for. -/
theorem hosted_asked (hosts : Hosts seen messages act desk event) {start : State}
    (empty : desk start = Point.start) (actions : List Action) {task : Task}
    {job : Job Key Conn Info} (there : (desk (run act start actions)).jobs task = some job) :
    ∃ state, ∃ action ∈ actions, event state action = some (job.phase.role.enter task job.conn) := by
  induction actions using List.reverseRecOn generalizing job with
  | nil =>
      rw [run_nil, empty] at there
      cases there
  | append_singleton actions action ih =>
      rw [run_append, run_cons, run_nil] at there
      have now := hosts (run act start actions) action
      cases was : (desk (run act start actions)).jobs task with
      | some before =>
          obtain ⟨state, asked, member, same⟩ := ih was
          obtain ⟨after, found, conn, role⟩ :=
            (hosted_later hosts (run act start actions) [action]).jobs task before was
          rw [run_cons, run_nil, there] at found
          cases found
          refine ⟨state, asked, List.mem_append_left _ member, ?_⟩
          rw [conn, role]
          exact same
      | none =>
          refine ⟨run act start actions, action, List.mem_append_right _ List.mem_cons_self, ?_⟩
          cases taken : event (run act start actions) action with
          | none =>
              rw [taken, Option.elim_none] at now
              rw [now, was] at there
              cases there
          | some first =>
              rw [taken, Option.elim_some] at now
              rw [now] at there
              rw [job_of_new seen messages was there]

/-- From a caller's first action on, those who were listed then are tried. -/
theorem hosted_tracks (hosts : Hosts seen messages act desk event) {state : State} {task : Task}
    (fresh : (desk state).jobs task = none) {action : Action} {conn : Conn} {key : Key}
    (calls : event state action = some (.call task conn key)) (later : List Action) :
    Tracks (waiters (desk state).board key) task (desk (run act state (action :: later))) := by
  obtain ⟨events, same⟩ := hosted_run hosts (act state action) later
  have now := hosts state action
  rw [calls, Option.elim_some] at now
  rw [run_cons, same, now]
  exact tracks_call seen messages (desk state) fresh conn key events

/-- A listed waiter has come to be found under the key. -/
theorem hosted_listed (hosts : Hosts seen messages act desk event) {start : State}
    (empty : desk start = Point.start) (actions : List Action) {key : Key}
    {waiter : Waiter Conn Info}
    (listed : waiter ∈ waiters (desk (run act start actions)).board key) :
    waiter.info = seen waiter.conn ∧ ∃ task state, ∃ action ∈ actions,
      event state action = some (.announce task waiter.conn key) := by
  obtain ⟨info, task, phase, found, lists⟩ :=
    (hosted_sound hosts empty actions).listed key waiter listed
  obtain ⟨state, action, member, asked⟩ := hosted_asked hosts empty actions found
  rw [role_of_lists lists] at asked
  exact ⟨info, task, state, action, member, asked⟩

end Hosts

end Runs

end HorizonOs.Lib.Meeting
