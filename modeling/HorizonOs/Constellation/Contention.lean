import HorizonOs.Constellation.RefLaws
import HorizonOs.Lifestream.Sample

/-!
# Several syncs into one store

Any number of syncs push into one destination, each from a source of its own,
while others commit to it and move its refs. A sync reads a ref, walks the new
target's history and writes the ref in separate calls. What it writes is always
ahead of what it read; it is ahead of what it replaces as long as nobody has
moved the ref in between.
-/

namespace HorizonOs.Constellation

open HorizonOs.Lib.ByteCodec HorizonOs.Lib.Runs HorizonOs.Lib.Programs HorizonOs.Lib.Search
open HorizonOs.Lifestream

set_option autoImplicit false

/-! ## What one sync sees -/

/-- What a source answers to each call. -/
abbrev Answers := ∀ call : TransportCall, Except Error (TransportReply call)

/-- The destination, the ref this sync read there last with what it found (a
history variable), and what its source would answer. -/
structure Sight where
  device : Device
  read : Option (String × Option ObjectId)
  source : Answers

def noteRead : ∀ call : TransportCall, TransportReply call → Option (String × Option ObjectId) →
    Option (String × Option ObjectId)
  | .getRef name, target, _ => some (name, target)
  | _, _, read => read

def sight (ls : Lifestream) : World SyncCall SyncReply Error Sight
  | (.source, call) => fun state =>
      match state.source call with
      | .ok reply => .ok reply state
      | .error error => .error error state
  | (.destination, call) => fun state =>
      match localTransport ls call state.device with
      | .ok reply later => .ok reply { state with device := later, read := noteRead call reply state.read }
      | .error error later => .error error { state with device := later }

/-! ## The destination -/

/-- A sync that has begun: what is left of it, nothing once it has failed, and
the ref it read last. -/
structure Peer where
  left : Option (SyncProgram SyncReport)
  read : Option (String × Option ObjectId)

structure Contest where
  device : Device
  syncs : List Peer

inductive Move where
  | begin
  | sync (index : Nat) (source : Answers)
  | put (plaintext : Bytes)
  | setRef (name : String) (id : ObjectId)

/-- The next call of a sync. -/
def Peer.step (ls : Lifestream) (device : Device) (source : Answers) (peer : Peer) :
    Device × Peer :=
  match peer.left with
  | some (.call request next) =>
      match sight ls request ⟨device, peer.read, source⟩ with
      | .ok reply later => (later.device, ⟨some (next reply), later.read⟩)
      | .error _ later => (later.device, ⟨none, later.read⟩)
  | _ => (device, peer)

def contestStep (ls : Lifestream) (state : Contest) : Move → Contest
  | .begin => { state with syncs := state.syncs ++ [⟨some sync, none⟩] }
  | .sync index source =>
      match state.syncs[index]? with
      | none => state
      | some peer =>
          let (device, later) := peer.step ls state.device source
          ⟨device, state.syncs.set index later⟩
  | .put plaintext => { state with device := finalState (ls.store.put plaintext state.device) }
  | .setRef name id => { state with device := finalState (setRef name id state.device) }

/-- The sync at this place is about to write a ref. -/
def Contest.Writes (state : Contest) (index : Nat) (peer : Peer) (name : String) (id : ObjectId) :
    Prop :=
  state.syncs[index]? = some peer ∧
    ∃ next, peer.left = some (.call (.destination, .setRef name id) next)

/-- Every generation in the history of a ref stays in the history of that ref. -/
def KeepsHistory (ls : Lifestream) (before after : Device) : Prop :=
  ∀ name old older, before.getRef name = .ok (some old) → Ancestor ls before older old →
    ∃ new, after.getRef name = .ok (some new) ∧ Ancestor ls after older new

/-- What a sync writes is ahead of what it replaces, and no history is lost. -/
def Forward (ls : Lifestream) (state : Contest) : Move → Prop
  | .sync index source =>
      (∀ peer name id old, state.Writes index peer name id →
        state.device.getRef name = .ok (some old) → Ancestor ls state.device old id) ∧
      KeepsHistory ls state.device (contestStep ls state (.sync index source)).device
  | _ => True

/-- A sync writes a ref only while the ref is as this sync read it, and the
write is not cut off. -/
def Timely (state : Contest) : Move → Prop
  | .sync index _ => ∀ peer name id, state.Writes index peer name id →
      (∀ target, peer.read = some (name, target) → state.device.getRef name = .ok target) ∧
        ∀ fault rest, state.device.faults = some fault :: rest → fault.landed = none
  | _ => True

/-! ## One sync among others -/

/-- What a sync owes before it writes a ref: what it found there when it last
read it, if anything, is in the history of what it writes. -/
def Checked (ls : Lifestream) : SyncCall → Sight → Prop
  | (.destination, .setRef name id), state => ∃ target, state.read = some (name, target) ∧
      ∀ old, target = some old → Ancestor ls state.device old id
  | _, _ => True

def amongOthers (ls : Lifestream) : Terms SyncCall SyncReply Error Sight where
  world := sight ls
  rely before after := after.read = before.read ∧ Grown before.device after.device
  duty := Checked ls
  fault _ _ := True
  rely_refl _ := ⟨rfl, fun _ _ found => found⟩
  rely_trans _ _ _ near far :=
    ⟨far.1.trans near.1, fun id record found => far.2 id record (near.2 id record found)⟩

theorem sight_grown (ls : Lifestream) (request : SyncCall) (state : Sight) :
    Grown state.device (finalState (sight ls request state)).device := by
  obtain ⟨side, call⟩ := request
  cases side with
  | source =>
      simp only [sight]
      cases state.source call <;> exact fun _ _ found => found
  | destination =>
      have grown := local_grown ls call state.device
      simp only [sight]
      cases outcome : localTransport ls call state.device <;> rw [outcome] at grown <;> exact grown

section AmongOthers

variable {ls : Lifestream} {α : Type} {post : α → Sight → Prop}

/-- A call that writes no ref is owed nothing. -/
theorem safe_glance {request : SyncCall} {next : SyncReply request → SyncProgram α} {state : Sight}
    (free : ∀ later, Checked ls request later)
    (leads : ∀ reply later after, (amongOthers ls).rely state later →
      sight ls request later = .ok reply after → Grown later.device after.device →
      (next reply).Safe (amongOthers ls) post after) :
    (HorizonOs.Lib.Programs.ask request >>= next).Safe (amongOthers ls) post state := by
  apply Program.Safe.ask
  case owed => exact fun later _ => free later
  case answers =>
    intro later reply after moved answer
    have grown := sight_grown ls request later
    have answer' : sight ls request later = .ok reply after := answer
    rw [answer'] at grown
    exact leads reply later after moved answer grown
  case fails => exact fun _ _ _ _ _ => trivial

theorem sight_parents {id : ObjectId} {state after : Sight} {reply : Option (List ObjectId)}
    (answer : sight ls (.destination, .parents id) state = .ok reply after) :
    after = state ∧ reply.getD [] = ls.parentsOf state.device id := by
  simp only [sight, localTransport] at answer
  cases outcome : reading (fun device => parentsAnswer (ls.get device id)) state.device with
  | error error later =>
      rw [outcome] at answer
      cases answer
  | ok found later =>
      have kept := reading_keeps (fun device => parentsAnswer (ls.get device id)) state.device
      rw [outcome] at answer kept
      cases answer
      rw [final_state_ok] at kept
      rw [kept]
      exact ⟨rfl, (parents_answer_ok ls state.device id _ (reading_ok outcome)).1⟩

/-- An ancestor that was found is one, and stays one as the store grows. -/
theorem safe_ancestry (old new : ObjectId) (state : Sight) :
    (isAncestor old new).Safe (amongOthers ls)
      (fun found later => later.read = state.read ∧
        (found = true → Ancestor ls later.device old new)) state := by
  unfold isAncestor
  apply Program.Safe.bind
  apply safe_explore (fun id => id = old) ancestryVisit idCount ids_few
    (fun _ stack later => later.read = state.read ∧
      ∀ node ∈ stack, Ancestor ls later.device node new)
  case ends =>
    rintro seen later last ⟨same, _⟩ moved final moved'
    exact ⟨moved'.1.trans (moved.1.trans same), fun absurd' => Bool.noConfusion absurd'⟩
  case stops =>
    rintro seen node rest later last ⟨same, led⟩ stopped moved final moved'
    refine ⟨moved'.1.trans (moved.1.trans same), fun _ => ?_⟩
    have path := led node List.mem_cons_self
    rw [of_decide_eq_true stopped] at path
    exact (path.kept moved.2).kept moved'.2
  case passes =>
    exact fun seen node rest later ⟨same, led⟩ _ =>
      ⟨same, fun other member => led other (List.mem_cons_of_mem _ member)⟩
  case visits =>
    rintro seen node rest later ⟨same, led⟩ _ _
    unfold ancestryVisit askDestination
    apply safe_glance
    case free => exact fun _ => trivial
    case leads =>
      intro reply between after moved answer grown last moved'
      obtain ⟨rfl, parents⟩ := sight_parents answer
      refine ⟨moved'.1.trans (moved.1.trans same), ?_⟩
      intro other member
      have kept : ∀ node, Ancestor ls later.device node new → Ancestor ls last.device node new :=
        fun node path => (path.kept moved.2).kept moved'.2
      rcases List.mem_append.mp member with found | stacked
      · rw [List.mem_reverse, parents] at found
        have path := (led node List.mem_cons_self).kept moved.2
        exact Ancestor.kept (path.edge found) moved'.2
      · exact kept other (led other (List.mem_cons_of_mem _ stacked))
  case distinct => exact List.nodup_nil
  case enough =>
    rw [List.length_nil]
    omega
  case holds =>
    refine ⟨rfl, ?_⟩
    intro node member
    rw [List.mem_singleton.mp member]
    exact Reaches.refl _ _

/-- A ref is written after it was read and found behind. -/
theorem safe_write {name : String} {id : ObjectId} {report : SyncReport} {state : Sight}
    {target : Option ObjectId} (read : state.read = some (name, target))
    (behind : ∀ old, target = some old → Ancestor ls state.device old id) :
    (askDestination (.setRef name id) >>= fun _ => pure report).Safe (amongOthers ls)
      (fun _ _ => True) state := by
  apply Program.Safe.ask
  case owed =>
    intro later moved
    exact ⟨target, moved.1.trans read, fun old found => (behind old found).kept moved.2⟩
  case answers => exact fun _ _ _ _ _ _ _ => trivial
  case fails => exact fun _ _ _ _ _ => trivial

theorem safe_carry (report : SyncReport) (ref : String × ObjectId) (state : Sight) :
    (syncRef report ref).Safe (amongOthers ls) (fun _ _ => True) state := by
  unfold syncRef
  apply safe_glance
  case free => exact fun _ => trivial
  case leads =>
    intro target later after moved answer grown
    have read : after.read = some (ref.1, target) := by
      simp only [sight] at answer
      cases outcome : localTransport ls (.getRef ref.1) later.device with
      | error error last =>
          rw [outcome] at answer
          cases answer
      | ok found last =>
          rw [outcome] at answer
          cases answer
          rfl
    cases target with
    | none => exact safe_write read fun old found => by cases found
    | some old =>
        simp only
        split
        case isTrue => exact fun _ _ => trivial
        case isFalse =>
          apply Program.Safe.bind
          apply (safe_ancestry old ref.2 after).imp
          rintro forward last ⟨same, found⟩
          cases forward with
          | true =>
              apply safe_write (same.trans read)
              intro other equal
              cases equal
              exact found rfl
          | false => exact fun _ _ => trivial

/-- A sync writes no ref before it has found it behind. -/
theorem safe_among_others (state : Sight) :
    sync.Safe (amongOthers ls) (fun _ _ => True) state := by
  have loop : ∀ {Item : Type} (body : SyncReport → Item → SyncProgram SyncReport),
      (∀ report item state, (body report item).Safe (amongOthers ls) (fun _ _ => True) state) →
      ∀ (items : List Item) report state,
        (items.foldlM body report).Safe (amongOthers ls) (fun _ _ => True) state := by
    intro Item body each items report state
    exact safe_fold body (fun _ _ _ _ => True) (fun _ item _ report state _ => each report item state)
      (fun _ _ _ _ _ _ _ => trivial) [] items report state trivial
  unfold sync askSource askDestination
  apply safe_glance
  case free => exact fun _ => trivial
  case leads =>
    intro source _ _ _ _ _
    apply safe_glance
    case free => exact fun _ => trivial
    case leads =>
      intro dest _ between _ _ _
      apply Program.Safe.bind
      apply (loop transferOne _ _ _ between).imp
      · intro report later _
        unfold syncRefs askSource
        apply safe_glance
        case free => exact fun _ => trivial
        case leads =>
          intro refs _ after _ _ _
          exact loop syncRef safe_carry refs report after
      · intro report id state
        unfold transferOne askSource askDestination
        apply safe_glance
        case free => exact fun _ => trivial
        case leads =>
          intro record _ _ _ _ _
          apply safe_glance
          case free => exact fun _ => trivial
          case leads =>
            intro wrote _ _ _ _ _
            split <;> exact fun _ _ => trivial

end AmongOthers

/-! ## All of them -/

/-- Whatever its source will answer, this sync does its duty. -/
def Peer.Careful (ls : Lifestream) (device : Device) (peer : Peer) : Prop :=
  ∀ program, peer.left = some program → ∀ source,
    program.Safe (amongOthers ls) (fun _ _ => True) ⟨device, peer.read, source⟩

def Contest.Careful (ls : Lifestream) (state : Contest) : Prop :=
  ∀ peer ∈ state.syncs, peer.Careful ls state.device

theorem Peer.Careful.grow {ls : Lifestream} {before after : Device} {peer : Peer}
    (careful : peer.Careful ls before) (grown : Grown before after) : peer.Careful ls after :=
  fun program left source => (careful program left source).stable ⟨rfl, grown⟩

theorem careful_peer_step (ls : Lifestream) (device : Device) (source : Answers) (peer : Peer)
    (careful : peer.Careful ls device) :
    Grown device (peer.step ls device source).1 ∧
      (peer.step ls device source).2.Careful ls (peer.step ls device source).1 := by
  unfold Peer.step
  split
  case h_1 request next left =>
    have grown := sight_grown ls request ⟨device, peer.read, source⟩
    cases outcome : sight ls request ⟨device, peer.read, source⟩ with
    | ok reply later =>
        rw [outcome] at grown
        refine ⟨grown, ?_⟩
        intro program same source'
        cases same
        have safe := (careful _ left source).answered outcome
        exact safe.stable ⟨rfl, fun _ _ found => found⟩
    | error error later =>
        rw [outcome] at grown
        exact ⟨grown, fun program same => by cases same⟩
  case h_2 => exact ⟨fun _ _ found => found, careful⟩

theorem careful_step (ls : Lifestream) (state : Contest) (move : Move)
    (careful : state.Careful ls) : (contestStep ls state move).Careful ls := by
  cases move with
  | begin =>
      intro peer member
      rcases List.mem_append.mp member with old | new
      · exact careful peer old
      · cases List.mem_singleton.mp new
        intro program same source
        cases same
        exact safe_among_others _
  | sync index source =>
      simp only [contestStep]
      cases found : state.syncs[index]? with
      | none => exact careful
      | some peer =>
          have held := careful peer (List.mem_of_getElem? found)
          obtain ⟨grown, later⟩ := careful_peer_step ls state.device source peer held
          intro other member
          rcases List.mem_or_eq_of_mem_set member with old | rfl
          · exact (careful other old).grow grown
          · exact later
  | put plaintext =>
      exact fun peer member =>
        (careful peer member).grow (advances_put ls.store plaintext state.device).objects
  | setRef name id =>
      exact fun peer member =>
        (careful peer member).grow (set_ref_keeps ls.store name id state.device).1.objects

/-! ## History -/

theorem KeepsHistory.of_same_refs {ls : Lifestream} {before after : Device}
    (grown : Grown before after) (refs : after.refs = before.refs)
    (outlook : after.unreadableRef = before.unreadableRef) : KeepsHistory ls before after := by
  intro name old older found path
  refine ⟨old, ?_, path.kept grown⟩
  rw [get_ref_congr (by rw [refs]) outlook]
  exact found

/-- A ref that is written to what is ahead of it keeps its history. -/
theorem KeepsHistory.of_write {ls : Lifestream} {before : Device} {name : String} {id : ObjectId}
    {outcome : EStateM.Result Lifestream.Error Device Unit}
    (written : RefWritten name id before outcome)
    (ahead : ∀ old, before.getRef name = .ok (some old) → Ancestor ls before old id)
    (uncut : ∀ fault rest, before.faults = some fault :: rest → fault.landed = none) :
    KeepsHistory ls before (finalState outcome) := by
  cases written with
  | written after only text =>
      have grown : Grown before after := fun id record found => by rw [only.objects]; exact found
      intro other old older found path
      rw [final_state_ok]
      by_cases same : other = name
      · subst same
        have readable : before.unreadableRef other = none := by
          unfold Device.getRef at found
          split at found
          · cases found
          · split at found
            · cases found
            · assumption
        refine ⟨id, get_ref_of_text ?_ ?_, Reaches.trans ((ahead old found).kept grown)
          (path.kept grown)⟩
        · rw [text, AList.lookup_insert]
        · rw [only.unreadableRef]
          exact readable
      · refine ⟨old, ?_, path.kept grown⟩
        rw [get_ref_congr (by rw [text, AList.lookup_insert_ne same]) only.unreadableRef]
        exact found
  | refused error after only text =>
      exact KeepsHistory.of_same_refs (fun id record found => by rw [final_state_error, only.objects]; exact found)
        text only.unreadableRef
  | torn error after only content blank text tears =>
      obtain ⟨fault, rest, ahead', landed⟩ := tears
      exact absurd (uncut fault rest ahead') landed

theorem peer_step_device (ls : Lifestream) (device : Device) (source : Answers) (peer : Peer) :
    (peer.step ls device source).1 = device ∨ ∃ call next,
      peer.left = some (.call (.destination, call) next) ∧
      (peer.step ls device source).1 = finalState (localTransport ls call device) := by
  unfold Peer.step
  split
  case h_1 request next left =>
    obtain ⟨side, call⟩ := request
    cases side with
    | source =>
        left
        simp only [sight]
        cases source call <;> rfl
    | destination =>
        refine .inr ⟨call, next, left, ?_⟩
        simp only [sight]
        cases localTransport ls call device <;> rfl
  case h_2 => exact .inl rfl

/-- A timely move of a careful sync goes forward. -/
theorem forward_step (ls : Lifestream) (state : Contest) (move : Move)
    (careful : state.Careful ls) (timely : Timely state move) : Forward ls state move := by
  cases move with
  | begin | put | setRef => exact trivial
  | sync index source =>
      have ahead : ∀ peer name id old, state.Writes index peer name id →
          state.device.getRef name = .ok (some old) → Ancestor ls state.device old id := by
        rintro peer name id old ⟨found, next, left⟩ there
        have owed := (careful peer (List.mem_of_getElem? found) _ left fun _ =>
          .error (.sync "")).owed
        obtain ⟨target, read, behind⟩ := owed
        have current := (timely peer name id ⟨found, next, left⟩).1 target read
        rw [there] at current
        cases current
        exact behind old rfl
      refine ⟨ahead, ?_⟩
      simp only [contestStep]
      cases found : state.syncs[index]? with
      | none => exact KeepsHistory.of_same_refs (fun _ _ found => found) rfl rfl
      | some peer =>
          rcases peer_step_device ls state.device source peer with same | ⟨call, next, left, done⟩
          · simp only [same]
            exact KeepsHistory.of_same_refs (fun _ _ found => found) rfl rfl
          · simp only [done]
            cases call with
            | haveIds | readRecord | refs | getRef | parents =>
                rw [local_read_keeps ls _ rfl]
                exact KeepsHistory.of_same_refs (fun _ _ found => found) rfl rfl
            | writeRecord id record =>
                rw [localTransport, writing_final]
                have advances := (write_record_outcome ls.store id record state.device).advances
                exact KeepsHistory.of_same_refs advances.objects advances.refs advances.unreadableRef
            | setRef name id =>
                rw [localTransport, writing_final]
                apply KeepsHistory.of_write (set_ref_result name id state.device)
                · exact fun old => ahead peer name id old ⟨found, next, left⟩
                · exact (timely peer name id ⟨found, next, left⟩).2

/-- In any run of syncs and other writers whose syncs write each ref while it is
as they read it, every ref a sync writes moves forward. -/
theorem timely_syncs_move_forward (ls : Lifestream) (device : Device) (moves : List Move)
    (timely : Guarded (contestStep ls) Timely ⟨device, []⟩ moves) :
    Guarded (contestStep ls) (Forward ls) ⟨device, []⟩ moves := by
  apply guarded_steps (contestStep ls) Timely (Forward ls) (Contest.Careful ls) _ _ _ _ _ timely
  · exact fun state move careful _ => careful_step ls state move careful
  · exact fun state move careful now => forward_step ls state move careful now
  · exact fun _ member => absurd member List.not_mem_nil

/-! ## Two runs -/

/-- What a store that stands still answers. -/
def answersOf (device : Device) : Answers := fun call =>
  match localTransport sampleStore call device with
  | .ok reply _ => .ok reply
  | .error error _ => .error error

/-- The ref a sync is about to write, and the ref it read last. -/
def Contest.writing (state : Contest) (index : Nat) :
    Option (String × Option (String × Option ObjectId)) :=
  match state.syncs[index]? with
  | some ⟨some (.call (.destination, .setRef name _) _), read⟩ => some (name, read)
  | _ => none

/-- A check that a move is timely, on a disk that does not fail. -/
def Contest.calm (state : Contest) : Move → Bool
  | .sync index _ =>
      match state.writing index with
      | none => true
      | some (name, some (other, target)) =>
          state.device.faults.isEmpty && other = name &&
            (state.device.getRef name).toOption = some target
      | some _ => false
  | _ => true

theorem timely_of_calm (state : Contest) (move : Move) (calm : state.calm move = true) :
    Timely state move := by
  cases move with
  | begin | put | setRef => exact trivial
  | sync index source =>
      rintro ⟨left, read⟩ name id ⟨found, next, writes⟩
      simp only at writes
      subst writes
      simp only [Contest.calm, Contest.writing, found] at calm
      cases read with
      | none => cases calm
      | some pair =>
          obtain ⟨other, target⟩ := pair
          simp only [Bool.and_eq_true, List.isEmpty_iff, decide_eq_true_eq] at calm
          obtain ⟨⟨faultless, _⟩, current⟩ := calm
          constructor
          · intro target' same
            cases same
            exact of_to_option current
          · intro fault rest ahead
            rw [faultless] at ahead
            cases ahead

/-- A sync from a store that is one commit ahead, up to the call that moves `HEAD`. -/
def pushedMoves : List Move :=
  .begin :: List.replicate 7 (.sync 0 (answersOf (Device.committed ["one", "two"])))

def lastMove : Move := .sync 0 (answersOf (Device.committed ["one", "two"]))

/-- A commit on the destination. -/
def commitMoves : List Move :=
  [.put (committedGeneration "three" [committedId "one" []]).encode,
   .setRef headRef (committedId "three" [committedId "one" []])]

theorem commit_then_push_moves_forward :
    Guarded (contestStep sampleStore) (Forward sampleStore) ⟨Device.committed ["one"], []⟩
      (pushedMoves ++ [lastMove] ++ commitMoves) := by
  apply timely_syncs_move_forward
  apply guarded_steps (contestStep sampleStore) (fun state move => state.calm move = true) Timely
    (fun _ => True) (fun _ _ _ _ => trivial) fun state move _ => timely_of_calm state move
  · exact trivial
  · decide +kernel

/-- The destination when the commit has come between the sync's check of `HEAD`
and its write, and after the write. -/
def contended : Contest :=
  run (contestStep sampleStore) ⟨Device.committed ["one"], []⟩ (pushedMoves ++ commitMoves)

def overwritten : Contest := contestStep sampleStore contended lastMove

/-- The new generation is dropped from `HEAD`. -/
theorem sync_drops_commit : ¬Guarded (contestStep sampleStore) (Forward sampleStore)
    ⟨Device.committed ["one"], []⟩ (pushedMoves ++ commitMoves ++ [lastMove]) := by
  intro forward
  have last : Forward sampleStore contended lastMove :=
    ((guarded_append _ _ _ _ _).mp forward).2.1
  have keeps : KeepsHistory sampleStore contended.device overwritten.device := last.2
  -- one evaluation of the run answers for all that is asked of it
  have facts : (contended.device.getRef headRef).toOption =
        some (some (committedId "three" [committedId "one" []])) ∧
      (overwritten.device.getRef headRef).toOption =
        some (some (committedId "two" [committedId "one" []])) ∧
      (∀ node ∈ [committedId "two" [committedId "one" []], committedId "one" []],
        ∀ next ∈ sampleStore.parentsOf overwritten.device node,
          next ∈ [committedId "two" [committedId "one" []], committedId "one" []]) ∧
      committedId "three" [committedId "one" []] ∉
        [committedId "two" [committedId "one" []], committedId "one" []] := by
    decide +kernel
  obtain ⟨found, moved, closed, absent⟩ := facts
  obtain ⟨new, now, path⟩ := keeps headRef _ _ (of_to_option found) (Reaches.refl _ _)
  rw [of_to_option moved] at now
  cases now
  exact absent (Reaches.carries path closed List.mem_cons_self)

end HorizonOs.Constellation
