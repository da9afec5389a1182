import HorizonOs.Constellation.RefLaws
import HorizonOs.Lifestream.Sample

/-!
# Sync from a store that is written to

While a sync runs, its source goes on committing: objects are put, then a ref
is set to a generation whose closure is complete. The sync lists the source's
objects first and reads its refs last, so a ref that is set in between may name
what was never listed.
-/

namespace HorizonOs.Constellation

open HorizonOs.Lib.ByteCodec HorizonOs.Lib.Runs HorizonOs.Lib.Programs HorizonOs.Lib.Search
open HorizonOs.Lifestream

set_option autoImplicit false

/-! ## The two stores -/

/-- Two stores, and of the sync between them: the objects that the source listed,
whether its refs were read, and the refs that were moved (history variables). -/
structure Live where
  source : Device
  dest : Device
  listed : Option (List ObjectId)
  refsRead : Bool
  moved : List (String × ObjectId)

def noteListed : ∀ call : TransportCall, TransportReply call → Live → Live
  | .haveIds, ids, state => { state with listed := some ids }
  | .refs, _, state => { state with refsRead := true }
  | _, _, state => state

def noteMoved : TransportCall → Live → Live
  | .setRef name id, state => { state with moved := (name, id) :: state.moved }
  | _, state => state

def live (ls : Lifestream) : World SyncCall SyncReply Error Live
  | (.source, call) => fun state =>
      match localTransport ls call state.source with
      | .ok reply later => .ok reply (noteListed call reply { state with source := later })
      | .error error later => .error error { state with source := later }
  | (.destination, call) => fun state =>
      match localTransport ls call state.dest with
      | .ok reply later => .ok reply (noteMoved call { state with dest := later })
      | .error error later => .error error { state with dest := later }

/-- What is left of the sync goes with it, nothing once it has failed. -/
structure Session where
  stores : Live
  left : Option (SyncProgram SyncReport)

/-- The sync makes its next call, or the source is written to. -/
inductive Event where
  | sync
  | put (plaintext : Bytes)
  | setRef (name : String) (id : ObjectId)

def sessionStep (ls : Lifestream) (state : Session) : Event → Session
  | .sync =>
      match state.left with
      | some (.call request next) =>
          match live ls request state.stores with
          | .ok reply later => ⟨later, some (next reply)⟩
          | .error _ later => ⟨later, none⟩
      | _ => state
  | .put plaintext =>
      { state with stores.source := finalState (ls.store.put plaintext state.stores.source) }
  | .setRef name id =>
      { state with stores.source := finalState (setRef name id state.stores.source) }

def Session.start (source dest : Device) : Session := ⟨⟨source, dest, none, false, []⟩, some sync⟩

/-- What the id leads to on the source is among these, or on the destination. -/
def Covered (ls : Lifestream) (ids : List ObjectId) (state : Live) (id : ObjectId) : Prop :=
  ∀ reached, Reaches (ls.edges state.source) id reached →
    reached ∈ ids ∨ state.dest.has reached = true

/-- A commit sets a ref once all that it leads to is there. -/
def Committed (ls : Lifestream) (state : Session) : Event → Prop
  | .setRef _ id => Complete ls state.stores.source id
  | _ => True

/-- Between the listing of the source and the reading of its refs, no ref is set
to what leads beyond the listing and the destination. -/
def InTime (ls : Lifestream) (state : Session) : Event → Prop
  | .setRef _ id => ∀ ids, state.stores.listed = some ids → state.stores.refsRead = false →
      Covered ls ids state.stores id
  | _ => True

/-- The whole closure of the id is on the source, and all of it on the destination. -/
def Landed (ls : Lifestream) (state : Live) (id : ObjectId) : Prop :=
  ∀ reached, Reaches (ls.edges state.source) id reached →
    state.source.has reached = true ∧ state.dest.has reached = true

/-- Every ref that the sync has moved has its closure on the destination. -/
def Grounded (ls : Lifestream) (state : Live) : Prop :=
  ∀ name id, (name, id) ∈ state.moved → Landed ls state id

/-! ## A growing source -/

theorem reaches_grown {ls : Lifestream} {before after : Device} {id reached : ObjectId}
    (grown : Grown before after) (complete : Complete ls before id)
    (path : Reaches (ls.edges after) id reached) : Reaches (ls.edges before) id reached := by
  have handed : ∀ node, Reaches (ls.edges before) id node → ∀ next ∈ ls.edges after node,
      Reaches (ls.edges before) id next := by
    intro node before' next leads
    rw [edges_congr ls (lookup_kept (complete node before') grown)] at leads
    exact before'.edge leads
  exact path.carries handed (Reaches.refl _ id)

theorem complete_grown {ls : Lifestream} {before after : Device} {id : ObjectId}
    (grown : Grown before after) (complete : Complete ls before id) : Complete ls after id :=
  fun reached path => grown.has (complete reached (reaches_grown grown complete path))

theorem Covered.grow {ls : Lifestream} {ids : List ObjectId} {before after : Live} {id : ObjectId}
    (covered : Covered ls ids before id) (complete : Complete ls before.source id)
    (source : Grown before.source after.source) (dest : Grown before.dest after.dest) :
    Covered ls ids after id := by
  intro reached path
  rcases covered reached (reaches_grown source complete path) with listed | present
  · exact .inl listed
  · exact .inr (dest.has present)

theorem Landed.grow {ls : Lifestream} {before after : Live} {id : ObjectId}
    (landed : Landed ls before id) (source : Grown before.source after.source)
    (dest : Grown before.dest after.dest) : Landed ls after id := by
  intro reached path
  obtain ⟨there, here⟩ := landed reached
    (reaches_grown source (fun reached path => (landed reached path).1) path)
  exact ⟨source.has there, dest.has here⟩

/-- What may happen to the two stores between two calls of the sync. -/
structure Beside (ls : Lifestream) (before after : Live) : Prop where
  dest : after.dest = before.dest
  listed : after.listed = before.listed
  refsRead : after.refsRead = before.refsRead
  moved : after.moved = before.moved
  grown : Grown before.source after.source
  refs : ∀ name target, after.source.getRef name = .ok (some target) →
    before.source.getRef name = .ok (some target) ∨ Complete ls after.source target ∧
      ∀ ids, before.listed = some ids → before.refsRead = false → Covered ls ids after target

theorem Grown.refl (device : Device) : Grown device device := fun _ _ found => found

theorem Beside.refl (ls : Lifestream) (state : Live) : Beside ls state state where
  dest := rfl
  listed := rfl
  refsRead := rfl
  moved := rfl
  grown := Grown.refl state.source
  refs _ _ found := .inl found

theorem Beside.trans {ls : Lifestream} {first second third : Live} (near : Beside ls first second)
    (far : Beside ls second third) : Beside ls first third where
  dest := far.dest.trans near.dest
  listed := far.listed.trans near.listed
  refsRead := far.refsRead.trans near.refsRead
  moved := far.moved.trans near.moved
  grown id record found := far.grown id record (near.grown id record found)
  refs name target found := by
    rcases far.refs name target found with there | ⟨complete, covered⟩
    · rcases near.refs name target there with origin | ⟨complete, covered⟩
      · exact .inl origin
      · refine .inr ⟨complete_grown far.grown complete, ?_⟩
        intro ids listed unread
        apply (covered ids listed unread).grow complete far.grown
        rw [far.dest]
        exact Grown.refl second.dest
    · refine .inr ⟨complete, ?_⟩
      intro ids listed unread
      exact covered ids (near.listed.trans listed) (near.refsRead.trans unread)

/-! ## What the sync relies on -/

/-- Every ref of the source is complete, and within the listing once it was made. -/
structure Ready (ls : Lifestream) (state : Live) : Prop where
  unread : state.refsRead = false
  closed : ClosureComplete ls state.source
  covered : ∀ ids name target, state.listed = some ids →
    state.source.getRef name = .ok (some target) → Covered ls ids state target

theorem Ready.beside {ls : Lifestream} {before after : Live} (ready : Ready ls before)
    (moved : Beside ls before after) : Ready ls after where
  unread := moved.refsRead.trans ready.unread
  closed name target found := by
    rcases moved.refs name target found with there | ⟨complete, _⟩
    · exact complete_grown moved.grown (ready.closed name target there)
    · exact complete
  covered ids name target listed found := by
    rw [moved.listed] at listed
    rcases moved.refs name target found with there | ⟨_, covered⟩
    · apply (ready.covered ids name target listed there).grow (ready.closed name target there)
        moved.grown
      rw [moved.dest]
      exact Grown.refl before.dest
    · exact covered ids listed ready.unread

def besideCommits (ls : Lifestream) : Terms SyncCall SyncReply Error Live where
  world := live ls
  rely := Beside ls
  duty
    | (.destination, .setRef _ id), state => Landed ls state id
    | _, _ => True
  fault _ _ := True
  rely_refl := Beside.refl ls
  rely_trans _ _ _ := Beside.trans

section Safe

variable {ls : Lifestream} {α : Type} {post : α → Live → Prop}

theorem live_source_ok {call : TransportCall} {reply : TransportReply call} {state after : Live}
    (reads : call.reads = true) (answer : live ls (.source, call) state = .ok reply after) :
    localTransport ls call state.source = .ok reply state.source ∧
      after = noteListed call reply state := by
  have kept := local_read_keeps ls call reads state.source
  simp only [live] at answer
  cases outcome : localTransport ls call state.source with
  | ok found later =>
      rw [outcome] at answer kept
      cases answer
      rw [final_state_ok] at kept
      rw [kept]
      exact ⟨rfl, rfl⟩
  | error error later =>
      rw [outcome] at answer
      cases answer

theorem live_destination_ok {call : TransportCall} {reply : TransportReply call}
    {state after : Live} (answer : live ls (.destination, call) state = .ok reply after) :
    ∃ dest, localTransport ls call state.dest = .ok reply dest ∧ Grown state.dest dest ∧
      after = noteMoved call { state with dest } := by
  have grown := local_grown ls call state.dest
  simp only [live] at answer
  cases outcome : localTransport ls call state.dest with
  | ok found later =>
      rw [outcome] at answer grown
      cases answer
      exact ⟨later, rfl, grown, rfl⟩
  | error error later =>
      rw [outcome] at answer
      cases answer

/-- The source is asked: nothing is owed, and nothing moves but what is noted. -/
theorem safe_ask_source {call : TransportCall} {next : TransportReply call → SyncProgram α}
    {state : Live} (reads : call.reads = true)
    (leads : ∀ reply later, Beside ls state later →
      localTransport ls call later.source = .ok reply later.source →
      (next reply).Safe (besideCommits ls) post (noteListed call reply later)) :
    (askSource call >>= next).Safe (besideCommits ls) post state := by
  apply Program.Safe.ask
  case owed => exact fun _ _ => trivial
  case answers =>
    intro later reply after moved answer
    obtain ⟨performed, rfl⟩ := live_source_ok reads answer
    exact leads reply later moved performed
  case fails => exact fun _ _ _ _ _ => trivial

/-- The destination is asked: what a ref is set to must have landed. -/
theorem safe_ask_destination {call : TransportCall} {next : TransportReply call → SyncProgram α}
    {state : Live}
    (owed : ∀ later, Beside ls state later → (besideCommits ls).duty (.destination, call) later)
    (leads : ∀ reply later dest, Beside ls state later →
      localTransport ls call later.dest = .ok reply dest → Grown later.dest dest →
      (next reply).Safe (besideCommits ls) post (noteMoved call { later with dest })) :
    (askDestination call >>= next).Safe (besideCommits ls) post state := by
  apply Program.Safe.ask
  case owed => exact owed
  case answers =>
    intro later reply after moved answer
    obtain ⟨dest, performed, grown, rfl⟩ := live_destination_ok answer
    exact leads reply later dest moved performed grown
  case fails => exact fun _ _ _ _ _ => trivial

/-- Halfway through the transfer of a listing: what is behind is there. -/
structure Arriving (ls : Lifestream) (ids here : List ObjectId) (state : Live) : Prop where
  ready : Ready ls state
  listed : state.listed = some ids
  here : ∀ id ∈ here, state.dest.has id = true

theorem Arriving.beside {ids here : List ObjectId} {before after : Live}
    (arriving : Arriving ls ids here before) (moved : Beside ls before after) :
    Arriving ls ids here after where
  ready := arriving.ready.beside moved
  listed := moved.listed.trans arriving.listed
  here id member := by
    rw [moved.dest]
    exact arriving.here id member

theorem Arriving.grow {ids here : List ObjectId} {before : Live} {dest : Device}
    (arriving : Arriving ls ids here before) (grown : Grown before.dest dest) :
    Arriving ls ids here { before with dest } where
  ready :=
    { unread := arriving.ready.unread
      closed := arriving.ready.closed
      covered := fun ids name target listed found =>
        (arriving.ready.covered ids name target listed found).grow
          (arriving.ready.closed name target found) (Grown.refl before.source) grown }
  listed := arriving.listed
  here id member := grown.has (arriving.here id member)

theorem safe_arrival (report : SyncReport) (id : ObjectId) (ids here : List ObjectId)
    (state : Live) (arriving : Arriving ls ids here state) :
    (transferOne report id).Safe (besideCommits ls)
      (fun _ later => Arriving ls ids (here ++ [id]) later) state := by
  unfold transferOne
  apply safe_ask_source rfl
  intro record later moved _
  apply safe_ask_destination
  case owed => exact fun _ _ => trivial
  case leads =>
    intro wrote between dest moved' performed grown
    have arrived := ((arriving.beside moved).beside moved').grow grown
    have received := write_record_outcome ls.store id record between.dest
    rw [localTransport] at performed
    rw [writing_ok performed] at received
    have present : dest.has id = true := by
      cases received with
      | held present => exact present
      | linked plaintext _ absent opens advances written objects =>
          rw [Device.has, objects, AList.lookup_insert]
          rfl
    have ended : ∀ last, Beside ls { between with dest } last →
        Arriving ls ids (here ++ [id]) last := by
      intro last moved''
      have steady := arrived.beside moved''
      refine ⟨steady.ready, steady.listed, ?_⟩
      intro other member
      rcases List.mem_append.mp member with old | new
      · exact steady.here other old
      · rw [List.mem_singleton.mp new, moved''.dest]
        exact present
    split <;> exact ended

/-- Every ref of the list has landed. -/
def AllLanded (ls : Lifestream) (refs : List (String × ObjectId)) (state : Live) : Prop :=
  ∀ name id, (name, id) ∈ refs → Landed ls state id

theorem AllLanded.beside {refs : List (String × ObjectId)} {before after : Live}
    (landed : AllLanded ls refs before) (moved : Beside ls before after) :
    AllLanded ls refs after := by
  intro name id member
  apply (landed name id member).grow moved.grown
  rw [moved.dest]
  exact Grown.refl before.dest

/-- A call on the destination undoes nothing that has landed. -/
theorem AllLanded.answered {refs : List (String × ObjectId)} {state : Live} {dest : Device}
    (landed : AllLanded ls refs state) (call : TransportCall) (grown : Grown state.dest dest) :
    AllLanded ls refs (noteMoved call { state with dest }) := by
  have same : AllLanded ls refs { state with dest } :=
    fun name id member => (landed name id member).grow (Grown.refl state.source) grown
  cases call <;> exact same

theorem safe_walk (refs : List (String × ObjectId)) (old new : ObjectId) (state : Live)
    (landed : AllLanded ls refs state) :
    (isAncestor old new).Safe (besideCommits ls) (fun _ later => AllLanded ls refs later) state := by
  unfold isAncestor
  apply Program.Safe.bind
  apply safe_explore (fun id => id = old) ancestryVisit idCount ids_few
    (fun _ _ later => AllLanded ls refs later)
  case ends => exact fun _ _ _ kept moved _ moved' => (kept.beside moved).beside moved'
  case stops => exact fun _ _ _ _ _ kept _ moved _ moved' => (kept.beside moved).beside moved'
  case passes => exact fun _ _ _ _ kept _ => kept
  case visits =>
    intro seen node rest later kept _ _
    unfold ancestryVisit
    apply safe_ask_destination
    case owed => exact fun _ _ => trivial
    case leads =>
      intro reply between dest moved _ grown last moved'
      exact ((kept.beside moved).answered (.parents node) grown).beside moved'
  case distinct => exact List.nodup_nil
  case enough =>
    rw [List.length_nil]
    omega
  case holds => exact landed

theorem safe_set {refs : List (String × ObjectId)} {name : String} {id : ObjectId}
    {report : SyncReport} {state : Live} (landed : AllLanded ls refs state)
    (member : (name, id) ∈ refs) :
    (askDestination (.setRef name id) >>= fun _ => pure report).Safe (besideCommits ls)
      (fun _ later => AllLanded ls refs later) state := by
  apply safe_ask_destination
  case owed => exact fun later moved => (landed.beside moved) name id member
  case leads =>
    intro _ later dest moved _ grown last moved'
    exact ((landed.beside moved).answered (.setRef name id) grown).beside moved'

theorem safe_carry_landed {refs : List (String × ObjectId)} {name : String} {id : ObjectId}
    (report : SyncReport) {state : Live} (landed : AllLanded ls refs state)
    (member : (name, id) ∈ refs) :
    (syncRef report (name, id)).Safe (besideCommits ls) (fun _ later => AllLanded ls refs later)
      state := by
  unfold syncRef
  apply safe_ask_destination
  case owed => exact fun _ _ => trivial
  case leads =>
    intro target later dest moved _ grown
    have steady := (landed.beside moved).answered (.getRef name) grown
    cases target with
    | none => exact safe_set steady member
    | some old =>
        simp only
        split
        case isTrue => exact fun last moved' => steady.beside moved'
        case isFalse =>
          apply Program.Safe.bind
          apply (safe_walk refs old id _ steady).imp
          intro forward last kept
          cases forward with
          | true => exact safe_set kept member
          | false => exact fun final moved' => kept.beside moved'

/-- Whatever commits come beside it, a sync sets a ref only to what has landed. -/
theorem safe_beside_commits (state : Live) (unread : state.refsRead = false)
    (unlisted : state.listed = none) (closed : ClosureComplete ls state.source) :
    sync.Safe (besideCommits ls) (fun _ _ => True) state := by
  have ready : Ready ls state := by
    refine ⟨unread, closed, ?_⟩
    intro ids name target listed
    rw [unlisted] at listed
    cases listed
  unfold sync
  apply safe_ask_source rfl
  intro source later moved performed
  rw [localTransport] at performed
  cases reading_ok performed
  have steady := ready.beside moved
  have begun : Arriving ls later.source.listIds [] { later with listed := some later.source.listIds } := by
    refine ⟨⟨steady.unread, steady.closed, ?_⟩, rfl, by simp⟩
    intro ids name target listed found reached path
    cases listed
    exact .inl ((listed_iff later.source reached).mpr (steady.closed name target found reached path))
  apply safe_ask_destination
  case owed => exact fun _ _ => trivial
  case leads =>
    intro dest between after moved' performed' grown
    have kept := local_read_keeps ls .haveIds rfl between.dest
    rw [performed', final_state_ok] at kept
    subst kept
    rw [localTransport] at performed'
    cases reading_ok performed'
    have here : Arriving ls later.source.listIds between.dest.listIds between := by
      have kept := begun.beside moved'
      exact ⟨kept.ready, kept.listed, fun id member => (listed_iff between.dest id).mp member⟩
    apply Program.Safe.bind
    have transfer : ((missing later.source.listIds between.dest.listIds).foldlM transferOne
        (startReport later.source.listIds between.dest.listIds)).Safe (besideCommits ls)
        (fun _ last => Arriving ls later.source.listIds (between.dest.listIds ++
          ([] ++ missing later.source.listIds between.dest.listIds)) last) between := by
      refine safe_fold transferOne (fun behind _ _ last => Arriving ls later.source.listIds
        (between.dest.listIds ++ behind) last) ?step ?steady [] _ _ between ?holds
      case step =>
        intro behind id ahead report last arriving
        rw [← List.append_assoc]
        exact safe_arrival report id _ _ last arriving
      case steady => exact fun _ _ _ _ _ arriving moved => arriving.beside moved
      case holds =>
        rw [List.append_nil]
        exact here
    apply transfer.imp
    intro report last arrived
    have all : ∀ id ∈ later.source.listIds, last.dest.has id = true := by
      intro id member
      apply arrived.here
      rw [List.nil_append, List.mem_append]
      by_cases there : id ∈ between.dest.listIds
      · exact .inl there
      · right
        rw [mem_missing]
        refine ⟨(listed_iff later.source id).mp member, ?_⟩
        rw [← Bool.not_eq_true, ← listed_iff]
        exact there
    unfold syncRefs
    apply safe_ask_source rfl
    intro refs next moved'' performed''
    rw [localTransport] at performed''
    have read := reading_ok performed''
    have arrived' := arrived.beside moved''
    have landed : AllLanded ls refs { next with refsRead := true } := by
      intro name id member reached path
      have found := (read_refs_mem next.source refs read name id).mp member
      refine ⟨arrived'.ready.closed name id found reached path, ?_⟩
      rcases arrived'.ready.covered _ name id arrived'.listed found reached path with listed | present
      · have present := all reached listed
        rw [← moved''.dest] at present
        exact present
      · exact present
    suffices carried : (refs.foldlM syncRef report).Safe (besideCommits ls)
        (fun _ final => ([] ++ refs) ++ [] = refs ∧ AllLanded ls refs final)
        { next with refsRead := true } by
      exact carried.imp fun _ _ _ => trivial
    refine safe_fold syncRef (fun behind ahead _ final => behind ++ ahead = refs ∧
      AllLanded ls refs final) ?step ?steady [] refs report _ ⟨rfl, landed⟩
    case step =>
      rintro behind ⟨name, id⟩ ahead value final ⟨parts, kept⟩
      have member : (name, id) ∈ refs := by
        rw [← parts]
        exact List.mem_append_right _ List.mem_cons_self
      apply (safe_carry_landed value kept member).imp
      intro _ _ still
      exact ⟨by rw [List.append_assoc]; exact parts, still⟩
    case steady =>
      rintro behind ahead value final last' ⟨parts, kept⟩ moved
      exact ⟨parts, kept.beside moved⟩

end Safe

/-! ## Runs -/

/-- The refs moved so far have landed, and the sync will set no other kind. -/
structure Session.Sound (ls : Lifestream) (state : Session) : Prop where
  grounded : Grounded ls state.stores
  safe : ∀ program, state.left = some program →
    program.Safe (besideCommits ls) (fun _ _ => True) state.stores

theorem Grounded.beside {ls : Lifestream} {before after : Live} (grounded : Grounded ls before)
    (moved : Beside ls before after) : Grounded ls after := by
  intro name id member
  rw [moved.moved] at member
  apply (grounded name id member).grow moved.grown
  rw [moved.dest]
  exact Grown.refl before.dest

theorem Session.Sound.beside {ls : Lifestream} {state : Session} (sound : state.Sound ls)
    (after : Live) (moved : Beside ls state.stores after) :
    Session.Sound ls { state with stores := after } where
  grounded := sound.grounded.beside moved
  safe program left := (sound.safe program left).stable moved

/-- Whatever becomes of a call, a ref that was moved has landed. -/
theorem grounded_call (ls : Lifestream) (request : SyncCall) (state : Live)
    (grounded : Grounded ls state) (owed : (besideCommits ls).duty request state) :
    Grounded ls (finalState (live ls request state)) := by
  obtain ⟨side, call⟩ := request
  cases side with
  | source =>
      have grown := local_grown ls call state.source
      simp only [live]
      cases outcome : localTransport ls call state.source with
      | ok reply later =>
          rw [outcome] at grown
          have kept : Grounded ls { state with source := later } :=
            fun name id member => (grounded name id member).grow grown (Grown.refl state.dest)
          cases call <;> exact kept
      | error error later =>
          rw [outcome] at grown
          exact fun name id member => (grounded name id member).grow grown (Grown.refl state.dest)
  | destination =>
      have grown := local_grown ls call state.dest
      simp only [live]
      cases outcome : localTransport ls call state.dest with
      | error error later =>
          rw [outcome] at grown
          exact fun name id member => (grounded name id member).grow (Grown.refl state.source) grown
      | ok reply later =>
          rw [outcome] at grown
          have kept : Grounded ls { state with dest := later } :=
            fun name id member => (grounded name id member).grow (Grown.refl state.source) grown
          cases call with
          | setRef name id =>
              intro other target member
              rcases List.mem_cons.mp member with same | old
              · cases same
                exact Landed.grow owed (Grown.refl state.source) grown
              · exact kept other target old
          | haveIds | readRecord | writeRecord | refs | getRef | parents => exact kept

theorem sound_session_step (ls : Lifestream) (state : Session) (event : Event)
    (sound : state.Sound ls) (guarded : Committed ls state event ∧ InTime ls state event) :
    (sessionStep ls state event).Sound ls := by
  cases event with
  | sync =>
      simp only [sessionStep]
      split
      case h_1 request next left =>
        have safe := sound.safe _ left
        have kept := grounded_call ls request state.stores sound.grounded safe.owed
        cases outcome : live ls request state.stores with
        | ok reply later =>
            rw [outcome] at kept
            refine ⟨kept, ?_⟩
            intro program same
            cases same
            exact safe.answered outcome
        | error error later =>
            rw [outcome] at kept
            exact ⟨kept, fun program same => by cases same⟩
      case h_2 => exact sound
  | put plaintext =>
      apply sound.beside
      have advances := advances_put ls.store plaintext state.stores.source
      refine ⟨rfl, rfl, rfl, rfl, advances.objects, ?_⟩
      intro name target found
      rw [get_ref_congr (by rw [advances.refs]) advances.unreadableRef] at found
      exact .inl found
  | setRef name id =>
      apply sound.beside
      obtain ⟨complete, inTime⟩ := guarded
      obtain ⟨grows, objects, _⟩ := set_ref_keeps ls.store name id state.stores.source
      refine ⟨rfl, rfl, rfl, rfl, grows.objects, ?_⟩
      intro other target found
      rcases set_ref_targets ls.store name id state.stores.source other target found with
        there | ⟨rfl, rfl⟩
      · exact .inl there
      · refine .inr ⟨complete_grown grows.objects complete, ?_⟩
        intro ids listed unread
        exact (inTime ids listed unread).grow complete grows.objects (Grown.refl _)

/-- In every run of a sync beside commits, all in time, whatever the sync has
moved a ref to has its whole closure on the destination. -/
theorem sync_beside_commits_grounded (ls : Lifestream) (source dest : Device) (events : List Event)
    (closed : ClosureComplete ls source)
    (guarded : Guarded (sessionStep ls)
      (fun state event => Committed ls state event ∧ InTime ls state event)
      (Session.start source dest) events) :
    Grounded ls (run (sessionStep ls) (Session.start source dest) events).stores := by
  have sound : (run (sessionStep ls) (Session.start source dest) events).Sound ls := by
    apply guarded_run_invariant (sessionStep ls) _ (Session.Sound ls) _ _ _ _ guarded
    · exact fun state event sound guarded => sound_session_step ls state event sound guarded
    · constructor
      · exact fun name id member => absurd member List.not_mem_nil
      · intro program same
        cases same
        exact safe_beside_commits _ rfl rfl closed
  exact sound.grounded

/-! ## Two runs -/

theorem complete_of_closed (ls : Lifestream) (device : Device) (ids : List ObjectId)
    {id : ObjectId}
    (closed : ∀ node ∈ ids, device.has node = true ∧ ∀ next ∈ ls.edges device node, next ∈ ids)
    (member : id ∈ ids) : Complete ls device id := by
  intro reached path
  have inside := path.carries (fun node member => (closed node member).2) member
  exact (closed reached inside).1

theorem guarded_syncs (ls : Lifestream) (count : Nat) (state : Session) :
    Guarded (sessionStep ls) (fun state event => Committed ls state event ∧ InTime ls state event)
      state (List.replicate count .sync) := by
  induction count generalizing state with
  | zero => exact trivial
  | succ count ih => exact ⟨⟨trivial, trivial⟩, ih _⟩

def secondId : ObjectId := committedId "two" [committedId "one" []]

/-- The second commit of a store, as the two steps it takes. -/
def secondCommit : List Event :=
  [.put (committedGeneration "two" [committedId "one" []]).encode, .setRef headRef secondId]

/-- A sync right after the second commit. -/
theorem commit_then_sync_grounded :
    Grounded sampleStore (run (sessionStep sampleStore)
      (Session.start (Device.committed ["one"]) Device.fresh)
      (secondCommit ++ List.replicate 13 .sync)).stores := by
  apply sync_beside_commits_grounded sampleStore (Device.committed ["one"]) Device.fresh
  · intro name target found
    exact (one_commit_whole name target found).complete
  · rw [guarded_append]
    refine ⟨⟨⟨trivial, trivial⟩, ⟨?_, ?_⟩, trivial⟩, guarded_syncs sampleStore 13 _⟩
    · -- the new generation, its root and its parent are there, and lead nowhere else
      apply complete_of_closed sampleStore _ [secondId, committedId "one" [],
        sampleStore.store.idOf (Object.tree []).encode]
      · decide +kernel
      · exact List.mem_cons_self
    · intro ids listed
      cases listed

/-- The same commit right after the sync has listed the source: `HEAD` comes to
name a generation that the destination does not have. -/
theorem commit_during_sync_dangles :
    ¬Grounded sampleStore (run (sessionStep sampleStore)
      (Session.start (Device.committed ["one"]) Device.fresh)
      (.sync :: secondCommit ++ List.replicate 8 .sync)).stores := by
  intro grounded
  have facts : (headRef, secondId) ∈ (run (sessionStep sampleStore)
        (Session.start (Device.committed ["one"]) Device.fresh)
        (.sync :: secondCommit ++ List.replicate 8 .sync)).stores.moved ∧
      (run (sessionStep sampleStore) (Session.start (Device.committed ["one"]) Device.fresh)
        (.sync :: secondCommit ++ List.replicate 8 .sync)).stores.dest.has secondId = false := by
    decide +kernel
  have landed := (grounded headRef secondId facts.1 secondId (Reaches.refl _ _)).2
  rw [facts.2] at landed
  cases landed

end HorizonOs.Constellation
