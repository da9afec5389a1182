import HorizonOs.Glass.Asking

/-!
# Nothing runs that was not asked for and confirmed

Over every run of the shell: at any time it is idle, waits for the plan of the last ask, shows that
plan, or shows why there is none. An Enter confirms a plan only in the third of these, and whatever
else happens the shell itself logs nothing but revocations.
-/

namespace HorizonOs.Glass

open HorizonOs.Aura (Catalog Executor Plan approveAndExecute)
open HorizonOs.Lib.Runs
open HorizonOs.Weave

set_option autoImplicit false

/-! ## What happened -/

/-- The shell as it was, and what happened to it. -/
abbrev Moment := Front × FrontEvent

section Moments

variable (finalSigma : List Char → List Char → Bool)

/-- The intent that an action hands to the planner. -/
def PaletteAction.asked : PaletteAction → Option String
  | .ask intent => some intent
  | _ => Option.none

/-- The intent that an Enter hands to the planner. -/
def asks : Moment → Option String
  | (front, .key .enter _) =>
      if front.planning.isNone && front.palette.proposal.isNone then
        (interpret finalSigma front.palette.input front.desk.shell.model).action.asked
      else none
  | _ => none

/-- An Escape while the planner is at work. -/
def cancels : Moment → Bool
  | (front, .key .escape _) => front.planning.isSome
  | _ => false

/-- The plan that an Enter confirms: the pending one, when there is a proposal. -/
def confirms : Moment → Option Plan
  | (front, .key .enter _) =>
      if front.planning.isNone && front.palette.proposal.isSome then front.pending else none
  | _ => none

/-- The request that the planner answers, and how. -/
def answers : Moment → Option (Request × Except String Plan)
  | (front, .answered result) => front.planner.requests.head?.map fun request => (request, result)
  | _ => none

/-- Nothing is asked, cancelled or confirmed. -/
structure Quiet (moment : Moment) : Prop where
  unasked : asks finalSigma moment = none
  uncancelled : cancels moment = false
  unconfirmed : confirms moment = none

/-- The last ask, with what happened since. -/
structure Asked (past recent : List Moment) (number : Nat) (intent : String) : Prop where
  made : ∃ moment older, past = recent ++ moment :: older ∧
    asks finalSigma moment = some intent ∧ number = moment.1.planEpoch + 1
  quiet : ∀ moment ∈ recent, Quiet finalSigma moment

theorem Asked.later {past recent : List Moment} {number : Nat} {intent : String}
    (asked : Asked finalSigma past recent number intent) {moments : List Moment}
    (quiet : ∀ moment ∈ moments, Quiet finalSigma moment) :
    Asked finalSigma (moments ++ past) (moments ++ recent) number intent where
  made := by
    obtain ⟨first, older, split, asking, count⟩ := asked.made
    refine ⟨first, older, ?_, asking, count⟩
    rw [split, List.append_assoc]
  quiet := List.forall_mem_append.mpr ⟨quiet, asked.quiet⟩

end Moments

/-! ## Runs -/

section Runs

variable (finalSigma : List Char → List Char → Bool) (catalog : Catalog)

/-- What happened, the last first, leads from the one to the other. -/
inductive Leads (first : Front) : List Moment → Front → Prop where
  | start : Leads first [] first
  | step {past : List Moment} {front : Front} {event : FrontEvent} {later : Front} :
      Leads first past front → frontStep finalSigma catalog front event = some later →
        Leads first ((front, event) :: past) later

/-! ## The invariant -/

/-- Nothing asked, nothing proposed. -/
structure Idle (front : Front) : Prop where
  planning : front.planning = none
  shown : front.palette.planning = none
  proposal : front.palette.proposal = none
  pending : front.pending = none

/-- The plan of the last ask is awaited. -/
structure Awaiting (past : List Moment) (front : Front) (recent : List Moment)
    (intent : String) : Prop where
  asked : Asked finalSigma past recent front.planEpoch intent
  planning : front.planning = some (front.planEpoch, intent)
  shown : front.palette.planning = some intent
  proposal : front.palette.proposal = none
  pending : front.pending = none
  sent : ∀ request ∈ front.planner.requests, request.number = front.planEpoch →
    request.intent = intent
  returned : ∀ result ∈ front.planner.results, result.1 = front.planEpoch →
    ∃ moment ∈ recent, answers moment = some (⟨front.planEpoch, intent⟩, result.2)

/-- There is no plan, and the proposal says why. -/
structure Failed (front : Front) (reason : Proposal) : Prop where
  planning : front.planning = none
  shown : front.palette.planning = none
  proposal : front.palette.proposal = some reason
  failed : reason.failed.isSome = true
  pending : front.pending = none

/-- The plan of the last ask is shown, and nothing else would be run. -/
structure Proposed (past : List Moment) (front : Front) (recent : List Moment) (intent : String)
    (plan : Plan) (executor : Executor) : Prop where
  asked : Asked finalSigma past recent front.planEpoch intent
  answered : ∃ moment ∈ recent, answers moment = some (⟨front.planEpoch, intent⟩, .ok plan)
  planning : front.planning = none
  shown : front.palette.planning = none
  proposal : front.palette.proposal = some (proposalFrom intent (Aura.preview plan executor).1)
  pending : front.pending = some plan

inductive Phase (past : List Moment) (front : Front) : Prop where
  | idle (idle : Idle front)
  | awaiting (recent : List Moment) (intent : String)
      (awaiting : Awaiting finalSigma past front recent intent)
  | failed (proposal : Proposal) (failed : Failed front proposal)
  | proposed (recent : List Moment) (intent : String) (plan : Plan) (executor : Executor)
      (proposed : Proposed finalSigma past front recent intent plan executor)

/-- The channels hold the last asks in order, or less of them once the thread is gone. -/
structure Numbered (front : Front) : Prop where
  below : ∀ number ∈ front.planner.numbers, number ≤ front.planEpoch
  fewer : front.planner.running = true → front.planner.numbers.length ≤ front.planEpoch
  consecutive : front.planner.running = true → front.planner.numbers =
    List.range' (front.planEpoch + 1 - front.planner.numbers.length) front.planner.numbers.length
  room : front.planner.numbers.length ≤ 2 ^ 64
  near : front.planning.isSome = true → ∀ number ∈ front.planner.numbers,
    front.planEpoch < number + 2 ^ 64

/-! ## Handlers that leave the machine where it is -/

/-- Neither the ask nor the proposal is touched. -/
structure SamePhase (front later : Front) : Prop where
  planning : later.planning = front.planning
  epoch : later.planEpoch = front.planEpoch
  pending : later.pending = front.pending
  shown : later.palette.planning = front.palette.planning
  proposal : later.palette.proposal = front.palette.proposal

/-- Nor are the channels. -/
structure Untouched (front later : Front) : Prop extends SamePhase front later where
  planner : later.planner = front.planner

theorem Untouched.trans {first middle last : Front} (near : Untouched first middle)
    (far : Untouched middle last) : Untouched first last where
  planning := far.planning.trans near.planning
  epoch := far.epoch.trans near.epoch
  pending := far.pending.trans near.pending
  shown := far.shown.trans near.shown
  proposal := far.proposal.trans near.proposal
  planner := far.planner.trans near.planner

variable {finalSigma catalog}

theorem desk_untouched (front : Front) (desk : Desktop) : Untouched front { front with desk } :=
  ⟨⟨rfl, rfl, rfl, rfl, rfl⟩, rfl⟩

theorem preview_untouched (front : Front) : Untouched front (front.preview finalSigma) :=
  ⟨⟨rfl, rfl, rfl, rfl, rfl⟩, rfl⟩

theorem relayout_untouched (front : Front) : Untouched front (front.relayout finalSigma) :=
  ⟨⟨rfl, rfl, rfl, rfl, rfl⟩, rfl⟩

theorem click_untouched (front : Front) (x y : Int) (outside : Outside) :
    Untouched front (front.click finalSigma x y outside) := by
  rw [Front.click]
  split
  · exact desk_untouched front front.desk
  · split
    · exact desk_untouched front _
    · split
      · exact desk_untouched front _
      · exact ((desk_untouched front _).trans (preview_untouched _)).trans (relayout_untouched _)

theorem polled_untouched (front : Front) (instant : Nat) (outside : Outside) :
    Untouched front (front.polled finalSigma instant outside).2 := by
  rw [Front.polled]
  dsimp only
  split
  · exact (desk_untouched front _).trans (preview_untouched _)
  · exact desk_untouched front _

theorem Idle.same {front later : Front} (idle : Idle front) (same : SamePhase front later) :
    Idle later where
  planning := same.planning.trans idle.planning
  shown := same.shown.trans idle.shown
  proposal := same.proposal.trans idle.proposal
  pending := same.pending.trans idle.pending

/-- While nothing is asked, cancelled or confirmed the phase carries over, when what the channels
hold for the last ask does. -/
theorem Phase.carried {past : List Moment} {front later : Front} (moments : List Moment)
    (phase : Phase finalSigma past front) (quiet : ∀ moment ∈ moments, Quiet finalSigma moment)
    (same : SamePhase front later)
    (kept : ∀ recent intent, Awaiting finalSigma past front recent intent →
      (∀ request ∈ later.planner.requests, request.number = front.planEpoch →
        request.intent = intent) ∧
      ∀ result ∈ later.planner.results, result.1 = front.planEpoch →
        ∃ m ∈ moments ++ recent, answers m = some (⟨front.planEpoch, intent⟩, result.2)) :
    Phase finalSigma (moments ++ past) later := by
  cases phase with
  | idle idle => exact .idle (idle.same same)
  | awaiting recent intent awaiting =>
      obtain ⟨sent, returned⟩ := kept recent intent awaiting
      refine .awaiting (moments ++ recent) intent ⟨?_, ?_, ?_, ?_, ?_, ?_, ?_⟩
      · rw [same.epoch]
        exact awaiting.asked.later finalSigma quiet
      · rw [same.planning, same.epoch]
        exact awaiting.planning
      · exact same.shown.trans awaiting.shown
      · exact same.proposal.trans awaiting.proposal
      · exact same.pending.trans awaiting.pending
      · rw [same.epoch]
        exact sent
      · rw [same.epoch]
        exact returned
  | failed proposal failed =>
      exact .failed proposal ⟨same.planning.trans failed.planning, same.shown.trans failed.shown,
        same.proposal.trans failed.proposal, failed.failed, same.pending.trans failed.pending⟩
  | proposed recent intent plan executor proposed =>
      refine .proposed (moments ++ recent) intent plan executor ⟨?_, ?_, ?_, ?_, ?_, ?_⟩
      · rw [same.epoch]
        exact proposed.asked.later finalSigma quiet
      · rw [same.epoch]
        obtain ⟨answering, among, answer⟩ := proposed.answered
        exact ⟨answering, List.mem_append_right _ among, answer⟩
      · exact same.planning.trans proposed.planning
      · exact same.shown.trans proposed.shown
      · exact same.proposal.trans proposed.proposal
      · exact same.pending.trans proposed.pending

theorem Phase.untouched {past : List Moment} {front later : Front} (moments : List Moment)
    (phase : Phase finalSigma past front) (quiet : ∀ moment ∈ moments, Quiet finalSigma moment)
    (same : Untouched front later) : Phase finalSigma (moments ++ past) later := by
  apply Phase.carried moments phase quiet same.toSamePhase
  intro recent intent awaiting
  rw [same.planner]
  refine ⟨awaiting.sent, fun result member number => ?_⟩
  obtain ⟨answering, among, answer⟩ := awaiting.returned result member number
  exact ⟨answering, List.mem_append_right _ among, answer⟩

/-- The same after one quiet moment. -/
theorem Phase.after {past : List Moment} {front later : Front} {moment : Moment}
    (phase : Phase finalSigma past front) (quiet : Quiet finalSigma moment)
    (same : Untouched front later) : Phase finalSigma (moment :: past) later :=
  Phase.untouched [moment] phase (List.forall_mem_singleton.mpr quiet) same

/-- Receiving from the front of the channels keeps their order. -/
theorem Numbered.received {front later : Front} (numbered : Numbered front) (count : Nat)
    (numbers : later.planner.numbers = front.planner.numbers.drop count)
    (running : later.planner.running = true → front.planner.running = true)
    (epoch : later.planEpoch = front.planEpoch)
    (planning : later.planning.isSome = true → front.planning.isSome = true) : Numbered later where
  below number member := by
    rw [numbers] at member
    rw [epoch]
    exact numbered.below number (List.mem_of_mem_drop member)
  fewer runs := by
    have fewer := numbered.fewer (running runs)
    rw [numbers, epoch, List.length_drop]
    omega
  consecutive runs := by
    have fewer := numbered.fewer (running runs)
    rw [numbers, epoch, List.length_drop]
    nth_rewrite 1 [numbered.consecutive (running runs)]
    rw [List.drop_range']
    by_cases short : count ≤ front.planner.numbers.length
    · congr 1
      omega
    · have none : front.planner.numbers.length - count = 0 := by omega
      rw [none]
      rfl
  room := by
    have room := numbered.room
    rw [numbers, List.length_drop]
    omega
  near planned number member := by
    rw [numbers] at member
    rw [epoch]
    exact numbered.near (planning planned) number (List.mem_of_mem_drop member)

theorem Numbered.untouched {front later : Front} (numbered : Numbered front)
    (same : Untouched front later) : Numbered later := by
  apply numbered.received 0
  · rw [same.planner, List.drop_zero]
  · rw [same.planner]
    exact id
  · exact same.epoch
  · rw [same.planning]
    exact id

/-! ## Handlers that end at rest -/

/-- At rest, with the channels as they were. -/
structure Rests (front later : Front) : Prop where
  idle : Idle later
  epoch : later.planEpoch = front.planEpoch
  planner : later.planner = front.planner

theorem Rests.untouched {front middle later : Front} (rests : Rests front middle)
    (same : Untouched middle later) : Rests front later where
  idle := rests.idle.same same.toSamePhase
  epoch := same.epoch.trans rests.epoch
  planner := same.planner.trans rests.planner

theorem Numbered.rests {front later : Front} (numbered : Numbered front)
    (rests : Rests front later) : Numbered later := by
  apply numbered.received 0
  · rw [rests.planner, List.drop_zero]
  · rw [rests.planner]
    exact id
  · exact rests.epoch
  · rw [rests.idle.planning]
    intro planned
    cases planned

theorem cancel_rests (front : Front) : Rests front (front.cancelPlanning finalSigma) :=
  ⟨⟨rfl, rfl, rfl, rfl⟩, rfl, rfl⟩

theorem dismiss_rests {front : Front} (unplanned : front.planning = none) :
    Rests front (front.dismissProposal finalSigma) :=
  ⟨⟨unplanned, rfl, rfl, rfl⟩, rfl, rfl⟩

theorem confirm_rests {front : Front} (unplanned : front.planning = none) (outside : Outside) :
    Rests front (front.confirm finalSigma catalog outside) := by
  rw [Front.confirm]
  split
  · exact dismiss_rests unplanned
  · exact ⟨⟨unplanned, rfl, rfl, rfl⟩, rfl, rfl⟩

/-- A line retyped at rest. -/
theorem retyped_rests {front : Front} (idle : Idle front) {palette : Palette}
    (shown : palette.planning = none) (proposal : palette.proposal = none) :
    Rests front (front.retyped finalSigma palette) :=
  ⟨⟨idle.planning, shown, proposal, idle.pending⟩, rfl, rfl⟩

/-- A key at rest leaves the shell at rest, unless it is an Enter that asks. -/
theorem typed_rests {front later : Front} (idle : Idle front) {key : ShellKey} {outside : Outside}
    (unasked : key = .enter →
      (interpret finalSigma front.palette.input front.desk.shell.model).action.asked = none)
    (typed : front.typed finalSigma key outside = some later) : Rests front later := by
  cases key with
  | char c =>
      cases typed
      exact retyped_rests idle idle.shown idle.proposal
  | backspace =>
      cases typed
      apply retyped_rests idle
      · rw [Palette.backspace]
        split
        · exact idle.shown
        · exact idle.shown
      · rw [Palette.backspace]
        split
        · exact idle.proposal
        · exact idle.proposal
  | delete =>
      cases typed
      apply retyped_rests idle
      · rw [Palette.delete]
        split
        · exact idle.shown
        · exact idle.shown
      · rw [Palette.delete]
        split
        · exact idle.proposal
        · exact idle.proposal
  | escape =>
      cases typed
      exact retyped_rests idle rfl rfl
  | left =>
      cases typed
      exact ⟨⟨idle.planning, idle.shown, idle.proposal, idle.pending⟩, rfl, rfl⟩
  | right =>
      cases typed
      exact ⟨⟨idle.planning, idle.shown, idle.proposal, idle.pending⟩, rfl, rfl⟩
  | home =>
      cases typed
      exact ⟨⟨idle.planning, idle.shown, idle.proposal, idle.pending⟩, rfl, rfl⟩
  | toEnd =>
      cases typed
      exact ⟨⟨idle.planning, idle.shown, idle.proposal, idle.pending⟩, rfl, rfl⟩
  | enter =>
      have none_ := unasked rfl
      rw [Front.typed, Front.execute] at typed
      cases action : (interpret finalSigma front.palette.input front.desk.shell.model).action with
      | none =>
          rw [action] at typed
          cases typed
          exact ⟨idle, rfl, rfl⟩
      | ask intent =>
          rw [action] at none_
          cases none_
      | launch command =>
          rw [action] at typed
          cases typed
          exact ⟨⟨idle.planning, rfl, rfl, idle.pending⟩, rfl, rfl⟩
      | sever grants =>
          rw [action] at typed
          cases typed
          exact ⟨⟨idle.planning, rfl, rfl, idle.pending⟩, rfl, rfl⟩

/-! ## The ask -/

/-- One more ask at the end of the channels. -/
theorem Numbered.asked {front later : Front} (numbered : Numbered front)
    (running : front.planner.running = true) (room : front.planner.numbers.length < 2 ^ 64)
    (epoch : later.planEpoch = front.planEpoch + 1)
    (numbers : later.planner.numbers = front.planner.numbers ++ [front.planEpoch + 1]) :
    Numbered later where
  below number member := by
    rw [numbers, List.mem_append, List.mem_singleton] at member
    rw [epoch]
    rcases member with earlier | last
    · exact Nat.le_succ_of_le (numbered.below number earlier)
    · exact Nat.le_of_eq last
  fewer _ := by
    rw [numbers, epoch, List.length_append]
    exact Nat.succ_le_succ (numbered.fewer running)
  consecutive _ := by
    have fewer := numbered.fewer running
    rw [numbers, epoch, List.length_append, List.length_singleton, List.range'_1_concat]
    nth_rewrite 1 [numbered.consecutive running]
    congr 2
    · omega
    · omega
  room := by
    rw [numbers, List.length_append, List.length_singleton]
    exact room
  near _ number member := by
    have fewer := numbered.fewer running
    rw [numbers, List.mem_append, List.mem_singleton] at member
    rw [epoch]
    rcases member with earlier | last
    · rw [numbered.consecutive running, List.mem_range'_1] at earlier
      omega
    · omega

theorem propose_awaits {past : List Moment} {front later : Front} {event : FrontEvent}
    {intent : String} (numbered : Numbered front)
    (asking : asks finalSigma (front, event) = some intent)
    (proposed : front.propose intent = some later) :
    Phase finalSigma ((front, event) :: past) (later.relayout finalSigma) ∧
      Numbered (later.relayout finalSigma) := by
  rw [Front.propose] at proposed
  dsimp only at proposed
  split at proposed
  case isTrue running =>
    split at proposed
    case isTrue room =>
      cases proposed
      constructor
      · apply Phase.awaiting [] intent
        constructor
        · exact ⟨⟨_, past, rfl, asking, rfl⟩, List.forall_mem_nil _⟩
        · rfl
        · rfl
        · rfl
        · rfl
        · intro request member number
          rcases List.mem_append.mp member with earlier | last
          · have below := numbered.below request.number
              (List.mem_append_right _ (List.mem_map_of_mem earlier))
            have next : request.number = front.planEpoch + 1 := number
            omega
          · rw [List.mem_singleton.mp last]
        · intro result member number
          have below := numbered.below result.1 (List.mem_append_left _ (List.mem_map_of_mem member))
          have next : result.1 = front.planEpoch + 1 := number
          omega
      · apply numbered.asked running room
        · rfl
        · change front.planner.results.map Prod.fst ++ (front.planner.requests ++
            [(⟨front.planEpoch + 1, intent⟩ : Request)]).map Request.number = _
          rw [List.map_append, ← List.append_assoc]
          rfl
    case isFalse => cases proposed
  case isFalse stopped =>
    cases proposed
    constructor
    · exact .failed _ ⟨rfl, rfl, rfl, rfl, rfl⟩
    · refine ⟨?_, fun runs => absurd runs stopped, fun runs => absurd runs stopped, numbered.room, ?_⟩
      · intro number member
        exact Nat.le_succ_of_le (numbered.below number member)
      · intro planned
        cases planned

/-! ## The plan -/

/-- What a poll of the planner comes to: everything in the channel was another ask's, or what
follows that is the answer to the awaited one. -/
theorem poll_outcome (catalog : Catalog) (front : Front) (outside : Outside)
    (results : List (Nat × Except String Plan)) :
    ((front.pollResults catalog outside results).2 =
        { front with planner := { front.planner with results := [] } }) ∨
      ∃ skipped number result rest awaited intent, results = skipped ++ (number, result) :: rest ∧
        front.planning = some (awaited, intent) ∧ epochOf awaited = epochOf number ∧
        (front.pollResults catalog outside results).2 =
          Front.finishPlan catalog { front with
            planning := none, planner := { front.planner with results := rest } }
            intent result outside := by
  induction results with
  | nil => exact .inl rfl
  | cons first results ih =>
      have skip : ((front.pollResults catalog outside results).2 =
            { front with planner := { front.planner with results := [] } }) ∨
          ∃ skipped number result rest awaited intent,
            first :: results = skipped ++ (number, result) :: rest ∧
            front.planning = some (awaited, intent) ∧ epochOf awaited = epochOf number ∧
            (front.pollResults catalog outside results).2 =
              Front.finishPlan catalog { front with
                planning := none, planner := { front.planner with results := rest } }
                intent result outside := by
        rcases ih with nothing | ⟨skipped, number, result, rest, awaited, intent, split, later⟩
        · exact .inl nothing
        · exact .inr ⟨first :: skipped, number, result, rest, awaited, intent,
            congrArg (first :: ·) split, later⟩
      rw [Front.pollResults]
      cases planning : front.planning with
      | none => simpa only [planning] using skip
      | some ask =>
          dsimp only
          split
          case isTrue same =>
            exact .inr ⟨[], first.1, first.2, results, ask.1, ask.2, rfl, rfl, same, rfl⟩
          case isFalse => simpa only [planning] using skip

/-- The tags of the asks in the channels tell them apart. -/
theorem Numbered.told_apart {front : Front} (numbered : Numbered front)
    (planned : front.planning.isSome = true) {number : Nat}
    (member : number ∈ front.planner.numbers) (same : epochOf front.planEpoch = epochOf number) :
    number = front.planEpoch := by
  have below := numbered.below number member
  have near := numbered.near planned number member
  have equal : front.planEpoch % 2 ^ 64 = number % 2 ^ 64 := by
    have values := congrArg UInt64.toNat same
    rwa [epochOf, epochOf, UInt64.toNat_ofNat', UInt64.toNat_ofNat'] at values
  omega

theorem poll_phase (catalog : Catalog) {past : List Moment} {front : Front} {moment : Moment}
    (phase : Phase finalSigma past front) (numbered : Numbered front)
    (quiet : Quiet finalSigma moment) (outside : Outside) :
    Phase finalSigma (moment :: past) (front.pollPlanner catalog outside).2 ∧
      Numbered (front.pollPlanner catalog outside).2 := by
  have quiet_ : ∀ m ∈ [moment], Quiet finalSigma m := List.forall_mem_singleton.mpr quiet
  rw [Front.pollPlanner]
  rcases poll_outcome catalog front outside front.planner.results with nothing |
    ⟨skipped, number, result, rest, awaited, intent, split, planning, same, received⟩
  · rw [nothing]
    constructor
    · have same : SamePhase front { front with planner := { front.planner with results := [] } } :=
        ⟨rfl, rfl, rfl, rfl, rfl⟩
      apply Phase.carried [moment] phase quiet_ same
      intro recent intent awaiting
      refine ⟨awaiting.sent, fun result member => ?_⟩
      cases member
    · apply numbered.received front.planner.results.length
      · rw [Planner.numbers, Planner.numbers, List.drop_append_of_le_length
          (by rw [List.length_map]), List.drop_of_length_le (by rw [List.length_map])]
        rfl
      · exact id
      · rfl
      · exact id
  · rw [received]
    have among : (number, result) ∈ front.planner.results := by
      rw [split]
      exact List.mem_append_right _ List.mem_cons_self
    have dropped : rest.map Prod.fst ++ front.planner.requests.map Request.number =
        front.planner.numbers.drop (skipped.length + 1) := by
      have length : (skipped.map Prod.fst).length = skipped.length := List.length_map _
      rw [Planner.numbers, split, List.map_append, List.map_cons, List.append_assoc,
        List.cons_append, ← length, List.drop_append,
        Nat.add_sub_cancel_left, List.drop_of_length_le (Nat.le_succ _)]
      rfl
    have ordered : ∀ later : Front, later.planning = none →
        later.planEpoch = front.planEpoch →
        later.planner = { front.planner with results := rest } → Numbered later := by
      intro later unplanned epoch planner
      apply numbered.received (skipped.length + 1)
      · rw [planner]
        exact dropped
      · rw [planner]
        exact id
      · exact epoch
      · rw [unplanned]
        intro planned
        cases planned
    cases phase with
    | idle idle =>
        rw [idle.planning] at planning
        cases planning
    | failed proposal failed =>
        rw [failed.planning] at planning
        cases planning
    | proposed recent intent' plan executor proposed =>
        rw [proposed.planning] at planning
        cases planning
    | awaiting recent intent' awaiting =>
        rw [awaiting.planning] at planning
        cases planning
        have planned : front.planning.isSome = true := by
          rw [awaiting.planning]
          rfl
        have exact_ : number = front.planEpoch := numbered.told_apart planned
          (List.mem_append_left _ (List.mem_map_of_mem among)) same
        obtain ⟨answering, late, answer⟩ := awaiting.returned (number, result) among exact_
        cases result with
        | ok plan =>
            constructor
            · exact .proposed (moment :: recent) intent plan _ ⟨awaiting.asked.later finalSigma quiet_,
                ⟨answering, List.mem_cons_of_mem _ late, answer⟩, rfl, rfl, rfl, rfl⟩
            · exact ordered _ rfl rfl rfl
        | error e =>
            constructor
            · exact .failed _ ⟨rfl, rfl, rfl, rfl, rfl⟩
            · exact ordered _ rfl rfl rfl

/-! ## The planner -/

theorem answer_phase {past : List Moment} {front : Front} {result : Except String Plan}
    (phase : Phase finalSigma past front) (numbered : Numbered front) :
    Phase finalSigma ((front, .answered result) :: past) (front.answer result) ∧
      Numbered (front.answer result) := by
  have quiet : Quiet finalSigma (front, .answered result) := ⟨rfl, rfl, rfl⟩
  rw [Front.answer]
  cases sent : front.planner.requests with
  | nil => exact ⟨phase.after quiet ⟨⟨rfl, rfl, rfl, rfl, rfl⟩, rfl⟩, numbered⟩
  | cons request requests =>
      constructor
      · refine Phase.carried [(front, .answered result)] phase
          (List.forall_mem_singleton.mpr quiet) ⟨rfl, rfl, rfl, rfl, rfl⟩ ?_
        intro recent intent awaiting
        have intents := awaiting.sent
        rw [sent] at intents
        obtain ⟨first, others⟩ := List.forall_mem_cons.mp intents
        refine ⟨others, fun returned member number => ?_⟩
        rcases List.mem_append.mp member with earlier | last
        · obtain ⟨answering, late, answer⟩ := awaiting.returned returned earlier number
          exact ⟨answering, List.mem_cons_of_mem _ late, answer⟩
        · rw [List.mem_singleton.mp last] at number ⊢
          refine ⟨_, List.mem_cons_self, ?_⟩
          rw [answers, sent, ← first number, ← number]
          rfl
      · refine numbered.received 0 ?_ id rfl id
        rw [List.drop_zero, Planner.numbers, Planner.numbers, sent, List.map_append,
          List.append_assoc]
        rfl

theorem lost_phase {past : List Moment} {front : Front} (phase : Phase finalSigma past front)
    (numbered : Numbered front) :
    Phase finalSigma ((front, .lost) :: past) front.losePlanner ∧ Numbered front.losePlanner := by
  constructor
  · refine Phase.carried [(front, .lost)] phase (List.forall_mem_singleton.mpr ⟨rfl, rfl, rfl⟩)
      ⟨rfl, rfl, rfl, rfl, rfl⟩ ?_
    intro recent intent awaiting
    constructor
    · intro request member
      cases member
    · intro result member number
      obtain ⟨answering, late, answer⟩ := awaiting.returned result member number
      exact ⟨answering, List.mem_cons_of_mem _ late, answer⟩
  · have left : ∀ number ∈ front.losePlanner.planner.numbers, number ∈ front.planner.numbers := by
      intro number member
      rw [Planner.numbers, Front.losePlanner, List.map_nil, List.append_nil] at member
      exact List.mem_append_left _ member
    refine ⟨fun number member => numbered.below number (left number member), ?_, ?_, ?_,
      fun planned number member => numbered.near planned number (left number member)⟩
    · intro runs
      cases runs
    · intro runs
      cases runs
    · have room := numbered.room
      rw [Planner.numbers, List.length_append] at room
      rw [Planner.numbers, Front.losePlanner, List.map_nil, List.append_nil]
      exact Nat.le_trans (Nat.le_add_right _ _) room

/-! ## Keys -/

theorem abandoned_idle {front : Front} (unplanned : front.planning = none)
    (shown : front.palette.planning = none) : Idle front.abandoned :=
  ⟨unplanned, shown, rfl, rfl⟩

/-- Without an ask in flight the band says so. -/
theorem Phase.unplanned {past : List Moment} {front : Front} (phase : Phase finalSigma past front)
    (unplanned : front.planning = none) : front.palette.planning = none := by
  cases phase with
  | idle idle => exact idle.shown
  | awaiting recent intent awaiting =>
      rw [awaiting.planning] at unplanned
      cases unplanned
  | failed proposal failed => exact failed.shown
  | proposed recent intent plan executor proposed => exact proposed.shown

theorem Phase.at_rest {past : List Moment} {front : Front} (phase : Phase finalSigma past front)
    (unplanned : front.planning = none) (unproposed : front.palette.proposal = none) :
    Idle front := by
  cases phase with
  | idle idle => exact idle
  | awaiting recent intent awaiting =>
      rw [awaiting.planning] at unplanned
      cases unplanned
  | failed proposal failed =>
      rw [failed.proposal] at unproposed
      cases unproposed
  | proposed recent intent plan executor proposed =>
      rw [proposed.proposal] at unproposed
      cases unproposed

theorem key_planning_phase {past : List Moment} {front : Front} {key : ShellKey}
    {outside : Outside} (phase : Phase finalSigma past front) (numbered : Numbered front)
    (planned : front.planning.isSome = true) :
    Phase finalSigma ((front, .key key outside) :: past) (front.keyPlanning finalSigma key) ∧
      Numbered (front.keyPlanning finalSigma key) := by
  have unasked : front.planning.isNone = false := by
    rw [← Option.not_isSome, planned]
    rfl
  cases key with
  | escape =>
      have rests : Rests front ((front.cancelPlanning finalSigma).relayout finalSigma) :=
        (cancel_rests front).untouched (relayout_untouched _)
      exact ⟨.idle rests.idle, numbered.rests rests⟩
  | enter =>
      refine ⟨phase.after ⟨?_, rfl, ?_⟩ (desk_untouched front front.desk), numbered⟩
      · rw [asks, unasked]
        rfl
      · rw [confirms, unasked]
        rfl
  | _ => exact ⟨phase.after ⟨rfl, rfl, rfl⟩ (desk_untouched front front.desk), numbered⟩

theorem typed_phase {front later : Front} {moments : List Moment} {key : ShellKey}
    {outside : Outside} (numbered : Numbered front) (idle : Idle front.abandoned)
    (unentered : key ≠ .enter)
    (pressed : (front.abandoned.typed finalSigma key outside).map (Front.relayout finalSigma) =
      some later) : Phase finalSigma moments later ∧ Numbered later := by
  obtain ⟨middle, typed, drawn⟩ := Option.map_eq_some_iff.mp pressed
  cases drawn
  have rests : Rests front.abandoned (middle.relayout finalSigma) :=
    (typed_rests idle (fun entered => absurd entered unentered) typed).untouched
      (relayout_untouched middle)
  exact ⟨.idle rests.idle, numbered.rests ⟨rests.idle, rests.epoch, rests.planner⟩⟩

/-- Any key but Enter and Escape gives the proposal up. -/
theorem key_proposal_other (front : Front) {key : ShellKey} (unentered : key ≠ .enter)
    (unescaped : key ≠ .escape) (outside : Outside) :
    front.keyProposal finalSigma catalog key outside =
      (front.abandoned.typed finalSigma key outside).map (Front.relayout finalSigma) := by
  cases key with
  | enter => exact absurd rfl unentered
  | escape => exact absurd rfl unescaped
  | _ => rfl

theorem key_proposal_phase {past : List Moment} {front later : Front} {key : ShellKey}
    {outside : Outside} (phase : Phase finalSigma past front) (numbered : Numbered front)
    (unplanned : front.planning = none)
    (pressed : front.keyProposal finalSigma catalog key outside = some later) :
    Phase finalSigma ((front, .key key outside) :: past) later ∧ Numbered later := by
  by_cases entered : key = .enter
  · rw [entered] at pressed
    cases pressed
    have rests : Rests front ((front.confirm finalSigma catalog outside).relayout finalSigma) :=
      (confirm_rests unplanned outside).untouched (relayout_untouched _)
    exact ⟨.idle rests.idle, numbered.rests rests⟩
  by_cases escaped : key = .escape
  · rw [escaped] at pressed
    cases pressed
    have rests : Rests front ((front.dismissProposal finalSigma).relayout finalSigma) :=
      (dismiss_rests unplanned).untouched (relayout_untouched _)
    exact ⟨.idle rests.idle, numbered.rests rests⟩
  · rw [key_proposal_other front entered escaped] at pressed
    exact typed_phase numbered (abandoned_idle unplanned (phase.unplanned unplanned)) entered pressed

theorem key_phase {past : List Moment} {front later : Front} {key : ShellKey} {outside : Outside}
    (phase : Phase finalSigma past front) (numbered : Numbered front)
    (pressed : front.key finalSigma catalog key outside = some later) :
    Phase finalSigma ((front, .key key outside) :: past) later ∧ Numbered later := by
  rw [Front.key] at pressed
  split at pressed
  case isTrue planned =>
    cases pressed
    exact key_planning_phase phase numbered planned
  case isFalse idle =>
    have unplanned : front.planning = none := Option.not_isSome_iff_eq_none.mp idle
    split at pressed
    case isTrue => exact key_proposal_phase phase numbered unplanned pressed
    case isFalse bare =>
      have unproposed : front.palette.proposal = none := Option.not_isSome_iff_eq_none.mp bare
      have rest := phase.at_rest unplanned unproposed
      obtain ⟨middle, typed, drawn⟩ := Option.map_eq_some_iff.mp pressed
      cases drawn
      cases asking : asks finalSigma (front, .key key outside) with
      | none =>
          have unasked : key = .enter → (interpret finalSigma front.palette.input
              front.desk.shell.model).action.asked = none := by
            intro entered
            rw [entered, asks, unplanned, unproposed] at asking
            exact asking
          have rests : Rests front (middle.relayout finalSigma) :=
            (typed_rests rest unasked typed).untouched (relayout_untouched middle)
          exact ⟨.idle rests.idle, numbered.rests rests⟩
      | some intent =>
          cases key with
          | enter =>
              have action := asking
              rw [asks, unplanned, unproposed] at action
              rw [Front.typed, Front.execute] at typed
              cases resolved :
                  (interpret finalSigma front.palette.input front.desk.shell.model).action with
              | ask asked =>
                  rw [resolved] at typed action
                  cases action
                  exact propose_awaits numbered asking typed
              | _ =>
                  rw [resolved] at action
                  cases action
          | _ => cases asking

/-! ## Runs keep the invariant -/

theorem step_phase {past : List Moment} {front later : Front} {event : FrontEvent}
    (phase : Phase finalSigma past front) (numbered : Numbered front)
    (stepped : frontStep finalSigma catalog front event = some later) :
    Phase finalSigma ((front, event) :: past) later ∧ Numbered later := by
  cases event with
  | written device =>
      cases stepped
      have same := desk_untouched front { front.desk with device }
      exact ⟨phase.after ⟨rfl, rfl, rfl⟩ same, numbered.untouched same⟩
  | answered result =>
      cases stepped
      exact answer_phase phase numbered
  | lost =>
      cases stepped
      exact lost_phase phase numbered
  | click x y outside =>
      cases stepped
      have same : Untouched front (front.click finalSigma x y outside) :=
        click_untouched front x y outside
      exact ⟨phase.after ⟨rfl, rfl, rfl⟩ same, numbered.untouched same⟩
  | key key outside => exact key_phase phase numbered stepped
  | tick instant outside =>
      cases stepped
      obtain ⟨received, ordered⟩ := poll_phase catalog phase numbered
        (⟨rfl, rfl, rfl⟩ : Quiet finalSigma (front, .tick instant outside)) outside
      have same : Untouched (front.pollPlanner catalog outside).2
          (front.tick finalSigma catalog instant outside) := by
        rw [Front.tick]
        dsimp only
        split
        · exact (polled_untouched _ instant outside).trans (relayout_untouched _)
        · exact polled_untouched _ instant outside
      exact ⟨Phase.untouched [] received (List.forall_mem_nil _) same, ordered.untouched same⟩

theorem leads_phase {shell : Shell} {device : HorizonOs.Lifestream.Device}
    {journal : List AuditEntry} {width height : UInt32} {past : List Moment} {front : Front}
    (leads : Leads finalSigma catalog (openFront finalSigma shell device journal width height)
      past front) : Phase finalSigma past front ∧ Numbered front := by
  induction leads with
  | start =>
      refine ⟨.idle ⟨rfl, rfl, rfl, rfl⟩, ?_, fun _ => Nat.le_refl 0, fun _ => rfl,
        Nat.zero_le _, ?_⟩
      · intro number member
        cases member
      · intro planned
        cases planned
  | step _ stepped ih => exact step_phase ih.1 ih.2 stepped

/-! ## What the shell logs -/

/-- The journal gained revocations at most. -/
def OnlyRevokes (before after : List AuditEntry) : Prop :=
  ∃ added, after = before ++ added ∧ ∀ entry ∈ added, ∃ grant, entry.event = .revoke grant

theorem OnlyRevokes.refl (journal : List AuditEntry) : OnlyRevokes journal journal :=
  ⟨[], (List.append_nil journal).symm, List.forall_mem_nil _⟩

theorem OnlyRevokes.trans {first middle last : List AuditEntry} (near : OnlyRevokes first middle)
    (far : OnlyRevokes middle last) : OnlyRevokes first last := by
  obtain ⟨early, middle', early_revokes⟩ := near
  obtain ⟨late, last', late_revokes⟩ := far
  refine ⟨early ++ late, ?_, List.forall_mem_append.mpr ⟨early_revokes, late_revokes⟩⟩
  rw [last', middle', List.append_assoc]

theorem revoke_only (draw : Draw) (grant : GrantId) (session : Session) :
    OnlyRevokes session.journal (finalState (revoke draw grant session)).journal := by
  simp only [revoke, bind_apply, get_apply]
  cases found : session.broker.grants.lookup grant with
  | none => exact .refl _
  | some state =>
      dsimp only
      split
      · exact .refl _
      · simp only [bind_apply, updateGrants]
        obtain ⟨device, _, ⟨id, outcome, _⟩ | ⟨_, ⟨error, outcome⟩, _⟩⟩ := log_outcome
          (session.withGrants (session.broker.grants.adjust grant GrantState.withRevoked))
          draw.logNow (.revoke grant)
        · rw [Session.withGrants] at outcome
          rw [outcome]
          exact ⟨_, rfl, List.forall_mem_singleton.mpr ⟨grant, rfl⟩⟩
        · rw [Session.withGrants] at outcome
          rw [outcome]
          exact .refl _

theorem sever_each_only (draws : Nat → Draw) (grants : List GrantId) (i : Nat)
    (session : Session) :
    OnlyRevokes session.journal (Front.severEach draws i grants session).2.journal := by
  induction grants generalizing i session with
  | nil => exact .refl _
  | cons grant rest ih =>
      have first := revoke_only (draws i) grant session
      rw [Front.severEach]
      cases revoked : revoke (draws i) grant session with
      | ok _ later =>
          rw [revoked] at first
          exact first.trans (ih (i + 1) later)
      | error _ later =>
          rw [revoked] at first
          exact first.trans (ih (i + 1) later)

theorem reload_journal {desk later : Desktop} {now : UInt64}
    (reloaded : reloadModel desk now = .ok later) : later.journal = desk.journal := by
  obtain ⟨model, _, ended⟩ := of_bind_ok reloaded
  cases ended
  rfl

theorem refreshed_journal (desk : Desktop) (now : UInt64) :
    (desk.refreshed now).journal = desk.journal := by
  rw [Desktop.refreshed]
  cases reloaded : reloadModel desk now with
  | error error => rfl
  | ok later => exact reload_journal reloaded

theorem poll_journal (desk : Desktop) (instant : Nat) (now : UInt64) :
    (pollStore desk instant now).2.journal = desk.journal := by
  rw [pollStore]
  split
  · rfl
  · dsimp only
    split
    case h_1 broker changed _ =>
      split
      · split
        case h_1 later reloaded =>
          have same := reload_journal reloaded
          exact same
        case h_2 => rfl
      · rfl
    case h_2 => rfl

theorem propose_desk {front later : Front} {intent : String}
    (proposed : front.propose intent = some later) : later.desk = front.desk := by
  rw [Front.propose] at proposed
  dsimp only at proposed
  split at proposed
  · split at proposed
    · cases proposed
      rfl
    · cases proposed
  · cases proposed
    rfl

theorem typed_only {front later : Front} {key : ShellKey} {outside : Outside}
    (typed : front.typed finalSigma key outside = some later) :
    OnlyRevokes front.desk.journal later.desk.journal := by
  cases key with
  | enter =>
      rw [Front.typed, Front.execute] at typed
      split at typed
      · cases typed
        exact .refl _
      · rw [propose_desk typed]
        exact .refl _
      · cases typed
        exact .refl _
      · cases typed
        rw [Front.sever, refreshed_journal]
        exact sever_each_only outside.draws _ 0 front.desk.session
  | _ =>
      cases typed
      exact .refl _

theorem click_only (front : Front) (x y : Int) (outside : Outside) :
    OnlyRevokes front.desk.journal (front.click finalSigma x y outside).desk.journal := by
  rw [Front.click]
  split
  · exact .refl _
  · case h_2 grant _ =>
      have revoked := revoke_only (outside.draws 0) grant front.desk.session
      split
      case h_1 error session failed =>
        rw [failed] at revoked
        exact revoked
      case h_2 session done =>
        rw [done] at revoked
        split
        · exact revoked
        case h_2 desk reloaded =>
          have same := reload_journal reloaded
          exact same ▸ revoked

theorem finish_desk (front : Front) (intent : String) (result : Except String Plan)
    (outside : Outside) : (front.finishPlan catalog intent result outside).desk = front.desk := by
  cases result <;> rfl

theorem tick_journal (front : Front) (instant : Nat) (outside : Outside) :
    (front.tick finalSigma catalog instant outside).desk.journal = front.desk.journal := by
  have received : (front.pollPlanner catalog outside).2.desk = front.desk := by
    rw [Front.pollPlanner]
    rcases poll_outcome catalog front outside front.planner.results with nothing |
      ⟨_, _, result, _, _, intent, _, _, _, received⟩
    · rw [nothing]
    · rw [received, finish_desk]
  have stored : ((front.pollPlanner catalog outside).2.polled finalSigma instant
      outside).2.desk.journal = front.desk.journal := by
    rw [Front.polled]
    dsimp only
    split
    · exact (poll_journal _ instant outside.now).trans (congrArg Desktop.journal received)
    · exact (poll_journal _ instant outside.now).trans (congrArg Desktop.journal received)
  rw [Front.tick]
  dsimp only
  split
  · exact stored
  · exact stored

/-- Where no plan is confirmed, the shell logs revocations at most. -/
theorem unconfirmed_only {front later : Front} {event : FrontEvent}
    (unconfirmed : confirms (front, event) = none)
    (stepped : frontStep finalSigma catalog front event = some later) :
    OnlyRevokes front.desk.journal later.desk.journal := by
  cases event with
  | written device =>
      cases stepped
      exact .refl _
  | answered result =>
      cases stepped
      rw [Front.answer]
      split
      · exact .refl _
      · exact .refl _
  | lost =>
      cases stepped
      exact .refl _
  | click x y outside =>
      cases stepped
      exact click_only front x y outside
  | tick instant outside =>
      cases stepped
      rw [tick_journal]
      exact .refl _
  | key key outside =>
      rw [frontStep, Front.key] at stepped
      split at stepped
      case isTrue =>
        cases stepped
        cases key <;> exact .refl _
      case isFalse idle =>
        split at stepped
        case isFalse =>
          obtain ⟨middle, typed, drawn⟩ := Option.map_eq_some_iff.mp stepped
          cases drawn
          have logged := typed_only typed
          exact logged
        case isTrue proposed =>
          by_cases entered : key = .enter
          · rw [entered] at stepped unconfirmed
            have unplanned : front.planning = none := Option.not_isSome_iff_eq_none.mp idle
            have nothing : front.pending = none := by
              rw [confirms, unplanned, proposed] at unconfirmed
              exact unconfirmed
            cases stepped
            rw [Front.confirm, nothing]
            exact .refl _
          by_cases escaped : key = .escape
          · rw [escaped] at stepped
            cases stepped
            exact .refl _
          · rw [key_proposal_other front entered escaped] at stepped
            obtain ⟨middle, typed, drawn⟩ := Option.map_eq_some_iff.mp stepped
            cases drawn
            have logged := typed_only typed
            exact logged

/-- What the confirmation of a plan does to the desktop. -/
theorem confirmed_runs {front later : Front} {event : FrontEvent} {plan : Plan}
    (confirmed : confirms (front, event) = some plan)
    (stepped : frontStep finalSigma catalog front event = some later) :
    ∃ outside, event = .key .enter outside ∧ front.planning = none ∧
      front.palette.proposal.isSome = true ∧ front.pending = some plan ∧
      later.desk = (front.runPlan catalog plan outside).2 := by
  cases event with
  | key key outside =>
      cases key with
      | enter =>
          rw [confirms] at confirmed
          split at confirmed
          case isTrue ready =>
            obtain ⟨idle, proposed⟩ := (Bool.and_eq_true _ _).mp ready
            have unplanned : front.planning = none := Option.isNone_iff_eq_none.mp idle
            rw [frontStep, Front.key, unplanned, if_neg (by decide), if_pos proposed] at stepped
            cases stepped
            refine ⟨outside, rfl, unplanned, proposed, confirmed, ?_⟩
            rw [Front.confirm, confirmed]
            rfl
          case isFalse => cases confirmed
      | _ => cases confirmed
  | _ => cases confirmed

/-! ## The machine is safe -/

variable (finalSigma catalog) in
/-- The events one after the other. -/
def record (first : Front) : List FrontEvent → Option (List Moment × Front)
  | [] => some ([], first)
  | event :: rest =>
      match frontStep finalSigma catalog first event with
      | none => none
      | some later => (record later rest).map fun run => (run.1 ++ [(first, event)], run.2)

theorem leads_append {first middle last : Front} {early late : List Moment}
    (near : Leads finalSigma catalog first early middle)
    (far : Leads finalSigma catalog middle late last) :
    Leads finalSigma catalog first (late ++ early) last := by
  induction far with
  | start => exact near
  | step _ stepped ih => exact .step ih stepped

theorem record_leads {first last : Front} {events : List FrontEvent} {past : List Moment}
    (recorded : record finalSigma catalog first events = some (past, last)) :
    Leads finalSigma catalog first past last := by
  induction events generalizing first past with
  | nil =>
      cases recorded
      exact .start
  | cons event rest ih =>
      rw [record] at recorded
      cases stepped : frontStep finalSigma catalog first event with
      | none =>
          rw [stepped] at recorded
          cases recorded
      | some later =>
          rw [stepped] at recorded
          obtain ⟨run, further, whole⟩ := Option.map_eq_some_iff.mp recorded
          cases whole
          exact leads_append (.step .start stepped) (ih further)

/-- Outside the shell the clock stands still. -/
def sampleOutside : Outside := ⟨21, fun _ => sampleDraw 10 1, [], .ok ()⟩

def samplePlan : Plan := ⟨"go", []⟩

/-- A line typed, entered, planned and shown. -/
def sampleEvents : List FrontEvent :=
  ("ask go".toList.map fun c => .key (.char c) sampleOutside) ++
    [.key .enter sampleOutside, .answered (.ok samplePlan), .tick 1 sampleOutside]

def sampleFront : Front :=
  openFront (fun _ _ => false) (freshShell 20) HorizonOs.Lifestream.Device.fresh [] 800 600

end Runs

end HorizonOs.Glass
