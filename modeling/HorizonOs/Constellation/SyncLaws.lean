import HorizonOs.Constellation.Sync

/-!
# What a sync does to two stores

The laws hold for whoever answers the calls of a sync from two stores, as long
as a call that fails has done nothing or all that it was asked: the peers of one
host, a network that loses replies, a disk that breaks down. `Carried` is what
the transfer has done to the destination so far, `RefsMoved` what the refs have.
-/

namespace HorizonOs.Constellation

open HorizonOs.Lib.ByteCodec HorizonOs.Lib.Runs HorizonOs.Lib.Programs HorizonOs.Lib.Search
open HorizonOs.Lifestream

set_option autoImplicit false

/-- Two stores of one identity behind direct calls. -/
def localPair (ls : Lifestream) : World SyncCall SyncReply Error (Device × Device) :=
  between (localTransport ls) (localTransport ls)

/-! ## The report -/

/-- What may become of a ref of the source. -/
inductive Fate where
  | set
  | same
  | advanced
  | conflicted
  deriving DecidableEq

/-- The refs a report names for their fate; one found the same is not named. -/
def SyncReport.named (report : SyncReport) : Fate → List String
  | .set => report.refsSet
  | .same => []
  | .advanced => report.refsAdvanced
  | .conflicted => report.refsConflicted

def SyncReport.note (report : SyncReport) (name : String) : Fate → SyncReport
  | .set => { report with refsSet := report.refsSet ++ [name] }
  | .same => report
  | .advanced => { report with refsAdvanced := report.refsAdvanced ++ [name] }
  | .conflicted => { report with refsConflicted := report.refsConflicted ++ [name] }

theorem named_note (report : SyncReport) (name : String) (fate other : Fate)
    (told : other ≠ .same) : (report.note name fate).named other =
      report.named other ++ if other = fate then [name] else [] := by
  cases other with
  | same => exact absurd rfl told
  | set | advanced | conflicted => cases fate <;> simp [SyncReport.note, SyncReport.named]

/-! ## Who answers -/

/-- The calls that only read. -/
def TransportCall.reads : TransportCall → Bool
  | .writeRecord _ _ => false
  | .setRef _ _ => false
  | _ => true

/-- The terms answer from two stores that nobody else moves, and a call that
only reads may fail where it is allowed to. -/
structure Reads {σ : Type} (terms : Terms SyncCall SyncReply Error σ) (ls : Lifestream)
    (view : σ → Device × Device) (allowed : SyncCall → Device × Device → Prop) : Prop where
  quiet : ∀ state later, terms.rely state later → view later = view state
  free : ∀ request state, terms.duty request state
  answers : ∀ request state reply after, terms.world request state = .ok reply after →
    localPair ls request (view state) = .ok reply (view after)
  fails : ∀ request state error after, request.2.reads = true →
    terms.world request state = .error error after → allowed request (view state) →
    terms.fault error after

/-- A call that writes may fail too, before it has done anything or after all
that it does. -/
structure Serves {σ : Type} (terms : Terms SyncCall SyncReply Error σ) (ls : Lifestream)
    (view : σ → Device × Device) (harm : Device × Device → Prop) : Prop
    extends Reads terms ls view fun _ => harm where
  breaks : ∀ request state error after, terms.world request state = .error error after →
    harm (view state) → harm (finalState (localPair ls request (view state))) →
    terms.fault error after

section Laws

variable {σ α : Type} {terms : Terms SyncCall SyncReply Error σ} {ls : Lifestream}
  {view : σ → Device × Device} {allowed : SyncCall → Device × Device → Prop}
  {harm : Device × Device → Prop} {post : α → σ → Prop}

theorem Serves.ask (serves : Serves terms ls view harm) {request : SyncCall}
    {next : SyncReply request → SyncProgram α} {state : σ} (unharmed : harm (view state))
    (harmless : harm (finalState (localPair ls request (view state))))
    (leads : ∀ reply after, localPair ls request (view state) = .ok reply (view after) →
      (next reply).Safe terms post after) :
    (HorizonOs.Lib.Programs.ask request >>= next).Safe terms post state := by
  apply Program.Safe.ask
  case owed => exact fun later _ => serves.free request later
  case answers =>
    intro later reply after moved answer
    have real := serves.answers request later reply after answer
    rw [serves.quiet state later moved] at real
    exact leads reply after real
  case fails =>
    intro later error after moved answer
    have same := serves.quiet state later moved
    apply serves.breaks request later error after answer
    · rw [same]
      exact unharmed
    · rw [same]
      exact harmless

end Laws

/-! ## The calls -/

theorem reading_keeps {β : Type} (read : Device → Except Lifestream.Error β) (device : Device) :
    finalState (reading read device) = device := by
  unfold reading
  cases read device <;> rfl

theorem reading_ok {β : Type} {read : Device → Except Lifestream.Error β} {device later : Device}
    {value : β} (answer : reading read device = .ok value later) : read device = .ok value := by
  unfold reading at answer
  cases outcome : read device with
  | ok other =>
      rw [outcome] at answer
      cases answer
      rfl
  | error error =>
      rw [outcome] at answer
      cases answer

theorem local_read_keeps (ls : Lifestream) (call : TransportCall) (reads : call.reads = true)
    (device : Device) : finalState (localTransport ls call device) = device := by
  cases call with
  | writeRecord id record => cases reads
  | setRef name id => cases reads
  | haveIds | readRecord | refs | getRef | parents =>
      rw [localTransport]
      apply reading_keeps

theorem pair_read_keeps (ls : Lifestream) (side : Side) (call : TransportCall)
    (reads : call.reads = true) (devices : Device × Device) :
    finalState (localPair ls (side, call) devices) = devices := by
  cases side with
  | source =>
      have kept := local_read_keeps ls call reads devices.1
      simp only [localPair, between]
      cases outcome : localTransport ls call devices.1 <;> rw [outcome] at kept <;>
        exact Prod.ext kept rfl
  | destination =>
      have kept := local_read_keeps ls call reads devices.2
      simp only [localPair, between]
      cases outcome : localTransport ls call devices.2 <;> rw [outcome] at kept <;>
        exact Prod.ext rfl kept

/-- A call that only reads. -/
theorem Reads.ask {σ α : Type} {terms : Terms SyncCall SyncReply Error σ} {ls : Lifestream}
    {view : σ → Device × Device} {allowed : SyncCall → Device × Device → Prop}
    {post : α → σ → Prop} (serves : Reads terms ls view allowed) (side : Side)
    (call : TransportCall) {next : TransportReply call → SyncProgram α} {state : σ}
    (reads : call.reads = true) (unharmed : allowed (side, call) (view state))
    (leads : ∀ reply after, localPair ls (side, call) (view state) = .ok reply (view state) →
      view after = view state → (next reply).Safe terms post after) :
    ((HorizonOs.Lib.Programs.ask ((side, call) : SyncCall) : SyncProgram (TransportReply call)) >>=
      next).Safe terms post state := by
  apply Program.Safe.ask
  case owed => exact fun later _ => serves.free (side, call) later
  case answers =>
    intro later reply after moved answer
    have real := serves.answers (side, call) later reply after answer
    rw [serves.quiet state later moved] at real
    have kept := pair_read_keeps ls side call reads (view state)
    rw [real, final_state_ok] at kept
    rw [kept] at real
    exact leads reply after real kept
  case fails =>
    intro later error after moved answer
    apply serves.fails (side, call) later error after reads answer
    rw [serves.quiet state later moved]
    exact unharmed

theorem pair_source_ok {ls : Lifestream} {call : TransportCall} {devices later : Device × Device}
    {reply : TransportReply call}
    (answer : localPair ls (.source, call) devices = .ok reply later) :
    localTransport ls call devices.1 = .ok reply later.1 ∧ later.2 = devices.2 := by
  simp only [localPair, between] at answer
  cases outcome : localTransport ls call devices.1 with
  | ok value after =>
      rw [outcome] at answer
      cases answer
      exact ⟨rfl, rfl⟩
  | error error after =>
      rw [outcome] at answer
      cases answer

theorem pair_destination_ok {ls : Lifestream} {call : TransportCall}
    {devices later : Device × Device} {reply : TransportReply call}
    (answer : localPair ls (.destination, call) devices = .ok reply later) :
    localTransport ls call devices.2 = .ok reply later.2 ∧ later.1 = devices.1 := by
  simp only [localPair, between] at answer
  cases outcome : localTransport ls call devices.2 with
  | ok value after =>
      rw [outcome] at answer
      cases answer
      exact ⟨rfl, rfl⟩
  | error error after =>
      rw [outcome] at answer
      cases answer

theorem pair_destination_final (ls : Lifestream) (call : TransportCall)
    (devices : Device × Device) :
    finalState (localPair ls (.destination, call) devices) =
      (devices.1, finalState (localTransport ls call devices.2)) := by
  simp only [localPair, between]
  cases localTransport ls call devices.2 <;> rfl

theorem writing_final {β : Type} (write : StoreM β) (device : Device) :
    finalState (writing write device) = finalState (write device) := by
  unfold writing
  cases write device <;> rfl

theorem writing_ok {β : Type} {write : StoreM β} {device later : Device} {value : β}
    (answer : writing write device = .ok value later) : write device = .ok value later := by
  unfold writing at answer
  cases outcome : write device with
  | ok other after =>
      rw [outcome] at answer
      cases answer
      rfl
  | error error after =>
      rw [outcome] at answer
      cases answer

/-- The two stores on their own. -/
theorem serves_pair (ls : Lifestream) (harm : Device × Device → Prop) :
    Serves (Terms.alone (localPair ls) (fun _ _ => True) fun _ => harm) ls id harm where
  quiet _ _ same := same
  free _ _ := trivial
  answers _ _ _ _ answer := answer
  fails request state error after reads answer unharmed := by
    have kept := pair_read_keeps ls request.1 request.2 reads state
    change localPair ls request state = .error error after at answer
    rw [answer, final_state_error] at kept
    rw [kept]
    exact unharmed
  breaks request state error after answer _ harmless := by
    change localPair ls request state = .error error after at answer
    rw [id_eq, answer, final_state_error] at harmless
    exact harmless

/-- Objects are only ever added. -/
def Grown (before after : Device) : Prop :=
  ∀ id record, before.objects.lookup id = some record → after.objects.lookup id = some record

theorem local_grown (ls : Lifestream) (call : TransportCall) (device : Device) :
    Grown device (finalState (localTransport ls call device)) := by
  cases call with
  | writeRecord id record =>
      rw [localTransport, writing_final]
      exact (write_record_outcome ls.store id record device).advances.objects
  | setRef name id =>
      rw [localTransport, writing_final]
      exact (set_ref_keeps ls.store name id device).1.objects
  | haveIds | readRecord | refs | getRef | parents =>
      rw [local_read_keeps ls _ rfl]
      exact fun _ _ found => found

theorem Grown.has {before after : Device} (grown : Grown before after) {id : ObjectId}
    (present : before.has id = true) : after.has id = true := by
  obtain ⟨record, found⟩ := Option.isSome_iff_exists.mp present
  exact Option.isSome_iff_exists.mpr ⟨record, grown id record found⟩

/-! ## Transfer -/

/-- Records of the source have been added to the destination, and nothing else. -/
structure Carried (ls : Lifestream) (source dest after : Device) : Prop where
  advances : Advances ls.store dest after
  carried : ∀ id, after.objects.lookup id = dest.objects.lookup id ∨
    dest.has id = false ∧ after.objects.lookup id = source.objects.lookup id
  opens : ∀ id record, after.objects.lookup id = some record →
    dest.objects.lookup id = some record ∨ ∃ plaintext, ls.store.verified id record = .ok plaintext

theorem Carried.refl (ls : Lifestream) (source dest : Device) : Carried ls source dest dest where
  advances := Advances.refl ls.store dest
  carried _ := .inl rfl
  opens _ _ found := .inl found

/-- Receiving a record of the source adds it, whatever becomes of the call. -/
theorem Carried.receive {ls : Lifestream} {source dest during : Device} {id : ObjectId}
    {record : Bytes} (carried : Carried ls source dest during)
    (found : source.objects.lookup id = some record)
    {outcome : EStateM.Result Lifestream.Error Device Bool}
    (received : Received ls.store id record during outcome) :
    Carried ls source dest (finalState outcome) := by
  have grown : ∀ after, Advances ls.store during after → Advances ls.store dest after :=
    fun after more => carried.advances.trans _ _ _ _ more
  cases received with
  | held present => exact carried
  | linked plaintext after absent opens advances _ objects =>
      constructor
      case advances => exact grown after advances
      case carried =>
        intro other
        by_cases same : other = id
        · subst same
          right
          constructor
          · by_contra present
            rw [Bool.not_eq_false] at present
            rw [carried.advances.toKeeps.has present] at absent
            cases absent
          · rw [final_state_ok, objects, AList.lookup_insert, found]
        · rw [final_state_ok, objects, AList.lookup_insert_ne same]
          exact carried.carried other
      case opens =>
        intro other sealed' here
        by_cases same : other = id
        · subst same
          rw [final_state_ok, objects, AList.lookup_insert] at here
          cases here
          exact .inr ⟨plaintext, opens⟩
        · rw [final_state_ok, objects, AList.lookup_insert_ne same] at here
          exact carried.opens other sealed' here
  | failed error after absent advances objects _ =>
      constructor
      case advances => exact grown after advances
      case carried =>
        intro other
        rw [final_state_error, objects]
        exact carried.carried other
      case opens =>
        intro other sealed' here
        rw [final_state_error, objects] at here
        exact carried.opens other sealed' here

section Carried

variable {ls : Lifestream} {source dest start : Device}

/-- Once all of the source was carried over, what lies under each id. -/
theorem Carried.lookup (carried : Carried ls source dest start)
    (whole : ∀ id, source.has id = true → start.has id = true) (id : ObjectId) :
    start.objects.lookup id =
      if dest.has id then dest.objects.lookup id else source.objects.lookup id := by
  split
  case isTrue here => exact lookup_kept here carried.advances.objects
  case isFalse absent =>
    rcases carried.carried id with same | ⟨_, same⟩
    · have gone : start.objects.lookup id = none := by
        rw [same]
        exact Option.not_isSome_iff_eq_none.mp absent
      rw [gone]
      cases there : source.objects.lookup id with
      | none => rfl
      | some record =>
          have present := whole id (Option.isSome_iff_exists.mpr ⟨record, there⟩)
          rw [Device.has, gone] at present
          cases present
    · exact same

theorem Carried.has (carried : Carried ls source dest start)
    (whole : ∀ id, source.has id = true → start.has id = true) (id : ObjectId) :
    start.has id = (source.has id || dest.has id) := by
  rw [Device.has, carried.lookup whole]
  split
  case isTrue here =>
    rw [here, Bool.or_true]
    exact here
  case isFalse absent =>
    rw [Bool.eq_false_iff.mpr absent, Bool.or_false]
    rfl

theorem Carried.contents_of_dest (carried : Carried ls source dest start) {id : ObjectId}
    (here : dest.has id = true) : ls.contents start id = ls.contents dest id :=
  contents_congr ls (lookup_kept here carried.advances.objects)

/-- What the source can open the destination holds, unless its own copy is bad. -/
theorem Carried.contents_of_source (carried : Carried ls source dest start)
    (whole : ∀ id, source.has id = true → start.has id = true) (alike : Alike ls source dest)
    {id : ObjectId} {object : Object} (there : ls.contents source id = some object) :
    ls.contents start id = some object ∨ dest.has id = true ∧ ls.contents dest id = none := by
  cases here : dest.has id with
  | true =>
      rw [carried.contents_of_dest here]
      cases held : ls.contents dest id with
      | none => exact .inr ⟨rfl, rfl⟩
      | some other =>
          rw [contents_agree alike there held]
          exact .inl rfl
  | false =>
      left
      rcases carried.carried id with same | ⟨_, same⟩
      · have present := whole id (contents_present there)
        rw [Device.has, same] at present
        rw [Device.has, present] at here
        cases here
      · rw [contents_congr ls same]
        exact there

theorem Carried.get_ref (carried : Carried ls source dest start) (name : String) :
    start.getRef name = dest.getRef name := by
  apply get_ref_congr
  · rw [carried.advances.refs]
  · exact carried.advances.unreadableRef

theorem Carried.alike (carried : Carried ls source dest start) (alike : Alike ls source dest) :
    Alike ls start source := by
  intro id first second plaintext other here there opens opens'
  rcases carried.carried id with same | ⟨_, same⟩
  · rw [same] at here
    exact (alike id second first other plaintext there here opens' opens).symm
  · rw [same, there] at here
    cases here
    rw [opens] at opens'
    cases opens'
    rfl

theorem Carried.valid (carried : Carried ls source dest start) (valid : Valid ls dest) :
    Valid ls start := by
  intro id record found
  rcases carried.opens id record found with old | opens
  · exact valid id record old
  · exact opens

/-- What is whole on the destination stays so. -/
theorem Carried.whole_of_dest (carried : Carried ls source dest start) {id : ObjectId}
    (wholeThere : Whole ls dest id) : Whole ls start id := by
  intro reached path
  have led : Reaches (ls.edges dest) id reached := by
    have handed : ∀ node, Reaches (ls.edges dest) id node → ∀ next ∈ ls.edges start node,
        Reaches (ls.edges dest) id next := by
      intro node before next leads
      apply before.edge
      obtain ⟨object, held⟩ := wholeThere node before
      rw [edges, carried.contents_of_dest (contents_present held)] at leads
      exact leads
    exact path.carries handed (Reaches.refl (ls.edges dest) id)
  obtain ⟨object, held⟩ := wholeThere reached led
  exact ⟨object, (carried.contents_of_dest (contents_present held)).trans held⟩

/-- What is whole on the source is whole where all of it was carried. -/
theorem Carried.whole_of_source (carried : Carried ls source dest start)
    (whole : ∀ id, source.has id = true → start.has id = true) (alike : Alike ls source dest)
    (valid : Valid ls dest) {id : ObjectId} (wholeThere : Whole ls source id) :
    Whole ls start id := by
  have opens : ∀ node object, ls.contents source node = some object →
      ls.contents start node = some object := by
    intro node object held
    rcases carried.contents_of_source whole alike held with same | ⟨here, bad⟩
    · exact same
    · rw [valid.contents alike held here] at bad
      cases bad
  intro reached path
  have led : Reaches (ls.edges source) id reached := by
    have handed : ∀ node, Reaches (ls.edges source) id node → ∀ next ∈ ls.edges start node,
        Reaches (ls.edges source) id next := by
      intro node before next leads
      apply before.edge
      obtain ⟨object, held⟩ := wholeThere node before
      rw [edges, opens node object held] at leads
      rw [edges, held]
      exact leads
    exact path.carries handed (Reaches.refl (ls.edges source) id)
  obtain ⟨object, held⟩ := wholeThere reached led
  exact ⟨object, opens reached object held⟩

end Carried

theorem read_record_ok {device : Device} {id : ObjectId} {record : Bytes}
    (read : device.readRecord id = .ok record) : device.objects.lookup id = some record := by
  unfold Device.readRecord at read
  split at read
  · cases read
  · split at read
    · cases read
    · cases read
      assumption

section Transfer

variable {σ : Type} {terms : Terms SyncCall SyncReply Error σ} {ls : Lifestream}
  {view : σ → Device × Device} {harm : Device × Device → Prop} {source dest : Device}

theorem safe_transfer_one (serves : Serves terms ls view harm)
    (harmless : ∀ after, Carried ls source dest after → harm (source, after))
    (report : SyncReport) (id : ObjectId) (state : σ) (during : Device)
    (here : view state = (source, during)) (carried : Carried ls source dest during) :
    (transferOne report id).Safe terms
      (fun next later => (∀ fate, next.named fate = report.named fate) ∧
        ∃ after, view later = (source, after) ∧ Carried ls source dest after ∧
          Advances ls.store during after ∧ after.has id = true) state := by
  unfold transferOne askSource askDestination
  apply serves.toReads.ask .source (.readRecord id) rfl
  case unharmed =>
    rw [here]
    exact harmless during carried
  case leads =>
    intro record between answer same
    obtain ⟨read, _⟩ := pair_source_ok answer
    rw [here, localTransport] at read
    have found : source.objects.lookup id = some record :=
      read_record_ok (reading_ok read)
    have received := write_record_outcome ls.store id record during
    have next := carried.receive found received
    apply serves.ask
    case unharmed =>
      rw [same, here]
      exact harmless during carried
    case harmless =>
      rw [same, here, pair_destination_final, localTransport, writing_final]
      exact harmless _ next
    case leads =>
      intro wrote after real
      obtain ⟨performed, kept⟩ := pair_destination_ok real
      rw [same, here] at performed kept
      have wroteIt := writing_ok performed
      rw [wroteIt] at received next
      have present : Advances ls.store during (view after).2 ∧ (view after).2.has id = true := by
        cases received with
        | held present => exact ⟨Advances.refl ls.store _, present⟩
        | linked plaintext _ absent opens advances written objects =>
            apply And.intro advances
            rw [Device.has, objects, AList.lookup_insert]
            rfl
      have ended : ∀ later, terms.rely after later →
          ∃ last, view later = (source, last) ∧ Carried ls source dest last ∧
            Advances ls.store during last ∧ last.has id = true := by
        intro later moved
        rw [serves.quiet after later moved]
        exact ⟨(view after).2, Prod.ext kept rfl, next, present.1, present.2⟩
      split
      · exact fun later moved => ⟨fun fate => by cases fate <;> rfl, ended later moved⟩
      · exact fun later moved => ⟨fun _ => rfl, ended later moved⟩

/-- The transfer leaves every object of the list on the destination. -/
theorem safe_transfer (serves : Serves terms ls view harm)
    (harmless : ∀ after, Carried ls source dest after → harm (source, after))
    (report : SyncReport) (ids : List ObjectId) (state : σ)
    (here : view state = (source, dest)) :
    (ids.foldlM transferOne report).Safe terms
      (fun next later => (∀ fate, next.named fate = report.named fate) ∧
        ∃ after, view later = (source, after) ∧ Carried ls source dest after ∧
          ∀ id ∈ ids, after.has id = true) state := by
  refine safe_fold transferOne (fun behind _ next later =>
    (∀ fate, next.named fate = report.named fate) ∧ ∃ after, view later = (source, after) ∧
      Carried ls source dest after ∧ ∀ id ∈ behind, after.has id = true)
    ?step ?steady [] ids report state
    ⟨fun _ => rfl, dest, here, Carried.refl ls source dest, by simp⟩
  case step =>
    rintro behind id ahead value later ⟨noted, during, there, carried, present⟩
    apply (safe_transfer_one serves harmless value id later during there carried).imp
    rintro next last ⟨kept, after, at', received, advances, new⟩
    refine ⟨fun fate => (kept fate).trans (noted fate), after, at', received, ?_⟩
    intro other member
    rcases List.mem_append.mp member with old | last'
    · exact advances.toKeeps.has (present other old)
    · rw [List.mem_singleton.mp last']
      exact new
  case steady =>
    rintro behind ahead value later last ⟨noted, after, there, rest⟩ moved
    exact ⟨noted, after, (serves.quiet later last moved).trans there, rest⟩

end Transfer

end HorizonOs.Constellation
