import HorizonOs.Constellation.RefLaws
import HorizonOs.Lifestream.Sample

/-!
# Sync that fails midway

Any call of a sync may fail: it is refused, it is done and its reply lost, or
the disk behind it fails. What a failure leaves behind is usable, and a later
sync makes good for it, unless the failing call cut off the file of a ref that
the destination had: `fs::write` truncates a ref file before it writes it, while
objects are published by a rename.
-/

namespace HorizonOs.Constellation

open HorizonOs.Lib.ByteCodec HorizonOs.Lib.Runs HorizonOs.Lib.Programs HorizonOs.Lib.Search
open HorizonOs.Lifestream

set_option autoImplicit false

/-! ## Calls that fail -/

/-- How a call fails on its way: before it is done, or after. -/
inductive Trouble where
  | refused (error : Error)
  | lost (error : Error)

/-- Two stores, and what comes in the way of the coming calls; none left means
nothing does. -/
structure Troubled where
  devices : Device × Device
  troubles : List (Option Trouble)

def troubled (ls : Lifestream) : World SyncCall SyncReply Error Troubled := fun request state =>
  match state.troubles with
  | some (.refused error) :: rest => .error error ⟨state.devices, rest⟩
  | some (.lost error) :: rest =>
      .error error ⟨finalState (localPair ls request state.devices), rest⟩
  | none :: rest =>
      match localPair ls request state.devices with
      | .ok reply later => .ok reply ⟨later, rest⟩
      | .error error later => .error error ⟨later, rest⟩
  | [] =>
      match localPair ls request state.devices with
      | .ok reply later => .ok reply ⟨later, []⟩
      | .error error later => .error error ⟨later, []⟩

/-- A sync among troubles, with the calls it made. -/
def troubledSync (ls : Lifestream) (source dest : Device) (troubles : List (Option Trouble)) :
    EStateM.Result Error (Troubled × List (SyncCall × Troubled)) SyncReport :=
  sync.run (recording (troubled ls)) (⟨(source, dest), troubles⟩, [])

/-! ## What is asked of a failure -/

def RefsWhole (ls : Lifestream) (device : Device) : Prop :=
  ∀ name target, device.getRef name = .ok (some target) → Whole ls device target

/-- The destination is in order, and each of its refs is where it was or where
the source has it. -/
structure Usable (ls : Lifestream) (source dest after : Device) : Prop where
  valid : Valid ls after
  refs : ∀ name, after.getRef name = dest.getRef name ∨
    ∃ id, source.getRef name = .ok (some id) ∧ after.getRef name = .ok (some id)
  whole : RefsWhole ls after

/-- A later sync that ends makes of it what one that never failed would have
made of the destination. -/
def Resumes (ls : Lifestream) (source dest after : Device) : Prop :=
  ∀ ahead ahead' report report' again clean,
    syncStores ls (source, { after with faults := ahead }) = .ok report again →
    syncStores ls (source, { dest with faults := ahead' }) = .ok report' clean →
    (∀ id, again.2.objects.lookup id = clean.2.objects.lookup id) ∧
      ∀ name, again.2.refs.lookup name = clean.2.refs.lookup name

/-- The call that goes wrong: a ref that the destination had is written, and the
write fails once the file is truncated. -/
def CutsOff (dest : Device) (call : SyncCall × Troubled) : Prop :=
  ∃ name id old fault rest, call.1 = (.destination, .setRef name id) ∧
    dest.getRef name = .ok (some old) ∧
    call.2.devices.2.faults = some fault :: rest ∧ fault.landed ≠ none ∧
    ∀ error later, call.2.troubles ≠ some (.refused error) :: later

/-! ## What a failure leaves -/

/-- A call that is not refused is done. -/
theorem troubled_final (ls : Lifestream) (request : SyncCall) (state : Troubled) :
    ((∃ error rest, state.troubles = some (.refused error) :: rest) ∧
        (finalState (troubled ls request state)).devices = state.devices) ∨
      (∀ error rest, state.troubles ≠ some (.refused error) :: rest) ∧
        (finalState (troubled ls request state)).devices =
          finalState (localPair ls request state.devices) := by
  unfold troubled
  split
  case h_1 error rest ahead => exact .inl ⟨⟨error, rest, ahead⟩, rfl⟩
  case h_2 ahead => exact .inr ⟨by simp [ahead], rfl⟩
  case h_3 ahead =>
    refine .inr ⟨by simp [ahead], ?_⟩
    cases localPair ls request state.devices <;> rfl
  case h_4 ahead =>
    refine .inr ⟨by simp [ahead], ?_⟩
    cases localPair ls request state.devices <;> rfl

theorem troubled_ok {ls : Lifestream} {request : SyncCall} {state after : Troubled}
    {reply : SyncReply request} (answer : troubled ls request state = .ok reply after) :
    localPair ls request state.devices = .ok reply after.devices := by
  unfold troubled at answer
  split at answer
  case h_1 => cases answer
  case h_2 => cases answer
  case h_3 =>
    cases outcome : localPair ls request state.devices <;> rw [outcome] at answer <;> cases answer
    rfl
  case h_4 =>
    cases outcome : localPair ls request state.devices <;> rw [outcome] at answer <;> cases answer
    rfl

theorem serves_troubled (ls : Lifestream) (harm : Device × Device → Prop) :
    Serves (Terms.alone (recording (troubled ls)) (fun _ _ => True) fun _ state =>
      harm state.1.devices) ls (fun state => state.1.devices) harm := by
  have breaks : ∀ (request : SyncCall) (state : Troubled × List (SyncCall × Troubled)) error after,
      recording (troubled ls) request state = .error error after → harm state.1.devices →
      harm (finalState (localPair ls request state.1.devices)) → harm after.1.devices := by
    intro request state error after answer unharmed harmless
    have final := recording_final (troubled ls) request state.1 state.2
    rw [answer] at final
    rw [final_state_error] at final
    rw [final]
    rcases troubled_final ls request state.1 with ⟨_, same⟩ | ⟨_, done⟩
    · rw [same]
      exact unharmed
    · rw [done]
      exact harmless
  constructor
  case breaks => exact breaks
  case toReads =>
    constructor
    case quiet =>
      intro state later same
      rw [same]
    case free => exact fun _ _ => trivial
    case answers =>
      intro request state reply after answer
      change recording (troubled ls) request state = .ok reply after at answer
      simp only [recording] at answer
      cases outcome : troubled ls request state.1 with
      | ok reply' later =>
          rw [outcome] at answer
          cases answer
          exact troubled_ok outcome
      | error error later =>
          rw [outcome] at answer
          cases answer
    case fails =>
      intro request state error after reads answer unharmed
      apply breaks request state error after answer unharmed
      rw [pair_read_keeps ls request.1 request.2 reads]
      exact unharmed

theorem Synced.midway {ls : Lifestream} {source dest after : Device} {report : SyncReport}
    (synced : Synced ls source dest report after) : Midway ls source dest after := by
  obtain ⟨start, refs, carried, whole, read, moved⟩ := synced
  refine ⟨start, carried, moved.halfway ?_, .inl whole⟩
  exact fun name id => (read_refs_mem source refs read name id).mp

theorem troubled_midway (ls : Lifestream) (source dest : Device)
    (troubles : List (Option Trouble)) :
    (finalState (troubledSync ls source dest troubles)).1.devices.1 = source ∧
      Midway ls source dest (finalState (troubledSync ls source dest troubles)).1.devices.2 := by
  have serves := serves_troubled ls fun devices =>
    devices.1 = source ∧ Midway ls source dest devices.2
  apply safe_final
    (fun state => state.1.devices.1 = source ∧ Midway ls source dest state.1.devices.2)
    (safe_sync serves (fun after midway => ⟨rfl, midway⟩) (⟨(source, dest), troubles⟩, []) rfl)
  · rintro report later ⟨after, here, synced⟩
    rw [here]
    exact ⟨rfl, synced.midway⟩
  · exact fun error later harm => harm

/-! ## Refs that had a target -/

/-- Every ref the destination had still names something. -/
def StillNamed (dest : Device) (after : Device) : Prop :=
  (∀ name, after.unreadableRef name = none) ∧
    ∀ name old, dest.getRef name = .ok (some old) → ∃ target, after.getRef name = .ok (some target)

theorem StillNamed.same_refs {dest before after : Device} (named : StillNamed dest before)
    (refs : after.refs = before.refs) (outlook : after.unreadableRef = before.unreadableRef) :
    StillNamed dest after := by
  constructor
  · rw [outlook]
    exact named.1
  · intro name old found
    rw [get_ref_congr (by rw [refs]) outlook]
    exact named.2 name old found

theorem StillNamed.write {dest before : Device} {name : String} {id : ObjectId}
    (named : StillNamed dest before) {outcome : EStateM.Result Lifestream.Error Device Unit}
    (written : RefWritten name id before outcome)
    (uncut : ∀ old fault rest, dest.getRef name = .ok (some old) →
      before.faults = some fault :: rest → fault.landed = none) :
    StillNamed dest (finalState outcome) := by
  cases written with
  | written after only text =>
      constructor
      · rw [final_state_ok, only.unreadableRef]
        exact named.1
      · intro other old found
        by_cases same : other = name
        · subst same
          refine ⟨id, get_ref_of_text ?_ ?_⟩
          · rw [final_state_ok, text, AList.lookup_insert]
          · rw [final_state_ok, only.unreadableRef]
            exact named.1 other
        · rw [final_state_ok, get_ref_congr (by rw [text, AList.lookup_insert_ne same])
            only.unreadableRef]
          exact named.2 other old found
  | refused error after only text => exact named.same_refs text only.unreadableRef
  | torn error after only content blank text tears =>
      obtain ⟨fault, rest, ahead, landed⟩ := tears
      constructor
      · rw [final_state_error, only.unreadableRef]
        exact named.1
      · intro other old found
        by_cases same : other = name
        · subst same
          exact absurd (uncut old fault rest found ahead) landed
        · rw [final_state_error, get_ref_congr (by rw [text, AList.lookup_insert_ne same])
            only.unreadableRef]
          exact named.2 other old found

theorem pair_source_final (ls : Lifestream) (call : TransportCall) (devices : Device × Device) :
    (finalState (localPair ls (.source, call) devices)).2 = devices.2 := by
  simp only [localPair, between]
  cases localTransport ls call devices.1 <;> rfl

/-- Only a call that cuts a ref off takes its target away. -/
theorem still_named_step (ls : Lifestream) (dest : Device) (request : SyncCall) (state : Troubled)
    (named : StillNamed dest state.devices.2) (uncut : ¬CutsOff dest (request, state)) :
    StillNamed dest (finalState (troubled ls request state)).devices.2 := by
  rcases troubled_final ls request state with ⟨_, same⟩ | ⟨performed, done⟩
  · rw [same]
    exact named
  · rw [done]
    obtain ⟨side, call⟩ := request
    cases side with
    | source =>
        rw [pair_source_final]
        exact named
    | destination =>
        cases call with
        | haveIds | readRecord | refs | getRef | parents =>
            rw [pair_read_keeps ls .destination _ rfl]
            exact named
        | writeRecord id record =>
            rw [pair_destination_final, localTransport, writing_final]
            have advances := (write_record_outcome ls.store id record state.devices.2).advances
            exact named.same_refs advances.refs advances.unreadableRef
        | setRef name id =>
            rw [pair_destination_final, localTransport, writing_final]
            apply named.write (set_ref_result name id state.devices.2)
            intro old fault rest found ahead
            by_contra landed
            exact uncut ⟨name, id, old, fault, rest, rfl, found, ahead, landed, performed⟩

/-- A call that cuts a ref off fails, and leaves a file that names nothing. -/
theorem cut_off_final (ls : Lifestream) {dest : Device} {call : SyncCall × Troubled}
    (cuts : CutsOff dest call) :
    isOk (troubled ls call.1 call.2) = false ∧
      ∃ name old content, dest.getRef name = .ok (some old) ∧
        (finalState (troubled ls call.1 call.2)).devices.2.refs.lookup name = some content ∧
        parseRef content = .ok none := by
  obtain ⟨request, state⟩ := call
  obtain ⟨name, id, old, fault, rest, made, found, ahead, landed, performed⟩ := cuts
  simp only at made ahead performed
  subst made
  obtain ⟨count, landed⟩ := Option.ne_none_iff_exists'.mp landed
  have torn : setRef name id state.devices.2 = .error (.io fault.message)
      { state.devices.2 with
        refs := state.devices.2.refs.insert name ((refText id).dropLast.take count)
        faults := rest } := by
    simp only [setRef, ahead, landed]
  have failed : isOk (localPair ls (.destination, .setRef name id) state.devices) = false := by
    simp only [localPair, between, localTransport, writing, torn]
    rfl
  constructor
  · unfold troubled
    split
    case h_1 => rfl
    case h_2 => rfl
    case h_3 | h_4 =>
      cases outcome : localPair ls (.destination, .setRef name id) state.devices with
      | ok reply later =>
          rw [outcome] at failed
          cases failed
      | error error later => rfl
  · refine ⟨name, old, (refText id).dropLast.take count, found, ?_, parse_torn_ref id count⟩
    rcases troubled_final ls (.destination, .setRef name id) state with
      ⟨⟨error, later, refused⟩, _⟩ | ⟨_, done⟩
    · exact absurd refused (performed error later)
    · rw [done, pair_destination_final, localTransport, writing_final, torn]
      exact AList.lookup_insert _

/-! ## Usable -/

section Midway

variable {ls : Lifestream} {source dest after : Device}

theorem Midway.unreadable_ref (midway : Midway ls source dest after) :
    after.unreadableRef = dest.unreadableRef := by
  obtain ⟨start, carried, halfway, _⟩ := midway
  rw [halfway.only.unreadableRef, carried.advances.unreadableRef]

/-- As long as no ref was cut off, what a failure leaves is usable. -/
theorem Midway.usable (midway : Midway ls source dest after) (alike : Alike ls source dest)
    (valid : Valid ls dest) (sourceWhole : RefsWhole ls source) (destWhole : RefsWhole ls dest)
    (named : StillNamed dest after) : Usable ls source dest after := by
  obtain ⟨start, carried, halfway, either⟩ := midway
  have outlook : ∀ name, after.unreadableRef name = none := named.1
  have edges : ls.edges after = ls.edges start := by
    funext id
    simp only [Lifestream.edges, contents, halfway.only.objects]
  have opens : ∀ id, Whole ls start id → Whole ls after id := by
    intro id whole reached path
    rw [edges] at path
    obtain ⟨object, held⟩ := whole reached path
    refine ⟨object, ?_⟩
    rw [contents, halfway.only.objects]
    exact held
  -- a ref is where it was, or it has moved and all of the source was there before it did
  have placed : ∀ name, after.getRef name = dest.getRef name ∨ ∃ id,
      source.getRef name = .ok (some id) ∧ after.getRef name = .ok (some id) ∧
      ∀ id, source.has id = true → start.has id = true := by
    intro name
    have stays : after.refs.lookup name = start.refs.lookup name →
        after.getRef name = dest.getRef name := by
      intro same
      rw [← carried.get_ref name]
      exact halfway.only.get_ref same
    rcases halfway.refs name with same | ⟨id, fate, found, meets, moves, moved | torn⟩
    · exact .inl (stays same)
    · rcases either with whole | untouched
      · exact .inr ⟨id, found, get_ref_of_text moved (outlook name), whole⟩
      · exact .inl (stays (by rw [untouched]))
    · obtain ⟨content, cut, blank⟩ := torn
      have gone : after.getRef name = .ok none := by
        simp only [Device.getRef, cut, outlook name, blank]
      left
      cases fate with
      | same => cases moves
      | conflicted => cases moves
      | set =>
          rw [gone, ← carried.get_ref name]
          exact meets.symm
      | advanced =>
          obtain ⟨old, there, _⟩ := meets
          rw [carried.get_ref name] at there
          obtain ⟨target, still⟩ := named.2 name old there
          rw [gone] at still
          cases still
  constructor
  case valid =>
    intro id record found
    rw [halfway.only.objects] at found
    exact carried.valid valid id record found
  case refs =>
    intro name
    rcases placed name with same | ⟨id, found, moved, _⟩
    · exact .inl same
    · exact .inr ⟨id, found, moved⟩
  case whole =>
    intro name target found
    apply opens
    rcases placed name with same | ⟨id, origin, moved, whole⟩
    · rw [same] at found
      exact carried.whole_of_dest (destWhole name target found)
    · rw [moved] at found
      cases found
      exact carried.whole_of_source whole alike valid (sourceWhole name target origin)

/-! ## Resuming -/

/-- What was carried so far makes no difference to what lies under an id in the end. -/
theorem Carried.resumed {start first second dest' : Device} (carried : Carried ls source dest start)
    (again : Carried ls source after first) (same : after.objects = start.objects)
    (wholeAgain : ∀ id, source.has id = true → first.has id = true)
    (clean : Carried ls source dest' second) (same' : dest'.objects = dest.objects)
    (wholeClean : ∀ id, source.has id = true → second.has id = true) (id : ObjectId) :
    first.objects.lookup id = second.objects.lookup id := by
  rw [again.lookup wholeAgain, clean.lookup wholeClean, Device.has, Device.has, same, same']
  rcases carried.carried id with old | ⟨absent, new⟩
  · rw [old]
  · rw [Device.has] at absent
    rw [absent, new]
    simp only [ite_self, Bool.false_eq_true, if_false]

/-- The fate of a ref depends on where it is and on the graph around it. -/
theorem Meets.transfer {first second : Device} {name : String} {id : ObjectId} {fate : Fate}
    (meets : Meets ls first name id fate) (target : second.getRef name = first.getRef name)
    (parents : ls.parentsOf second = ls.parentsOf first)
    (reads : ∀ id, ls.get second id = ls.get first id) : Meets ls second name id fate := by
  cases fate with
  | set | same => exact target.trans meets
  | advanced =>
      obtain ⟨old, found, differs, path⟩ := meets
      refine ⟨old, target.trans found, differs, ?_⟩
      rw [Ancestor, parents]
      exact path
  | conflicted =>
      obtain ⟨old, found, differs, apart, history⟩ := meets
      refine ⟨old, target.trans found, differs, ?_, ?_⟩
      · rw [Ancestor, parents]
        exact apart
      · intro older path
        rw [Ancestor, parents] at path
        rw [reads older]
        exact history older path

theorem get_of_lookup (ls : Lifestream) {first second : Device} {id : ObjectId}
    (same : second.objects.lookup id = first.objects.lookup id)
    (outlook : second.unreadable = first.unreadable) : ls.get second id = ls.get first id := by
  simp only [Lifestream.get, ObjectStore.get, Device.readRecord, same, outlook]

theorem parents_of_lookup (ls : Lifestream) {first second : Device}
    (same : ∀ id, second.objects.lookup id = first.objects.lookup id) :
    ls.parentsOf second = ls.parentsOf first := by
  funext id
  simp only [parentsOf, contents_congr ls (same id)]

theorem Midway.resumes (midway : Midway ls source dest after)
    (readable : ∀ name, dest.unreadableRef name = none) : Resumes ls source dest after := by
  obtain ⟨start, carried, halfway, _⟩ := midway
  intro ahead ahead' report report' again clean ran ran'
  obtain ⟨_, first, refs, carriedAgain, wholeAgain, read, moved⟩ := synced_of_ok ran
  obtain ⟨_, second, refs', carriedClean, wholeClean, read', moved'⟩ := synced_of_ok ran'
  cases read.symm.trans read'
  have objects := carried.resumed carriedAgain halfway.only.objects wholeAgain carriedClean rfl
    wholeClean
  have parents : ls.parentsOf first = ls.parentsOf second := parents_of_lookup ls objects
  have unreadable : first.unreadable = second.unreadable := by
    rw [carriedAgain.advances.unreadable, carriedClean.advances.unreadable]
    exact halfway.only.unreadable.trans carried.advances.unreadable
  have outlook : first.unreadableRef = second.unreadableRef := by
    rw [carriedAgain.advances.unreadableRef, carriedClean.advances.unreadableRef]
    exact halfway.only.unreadableRef.trans carried.advances.unreadableRef
  have readable' : ∀ name, first.unreadableRef name = none := by
    rw [outlook, carriedClean.advances.unreadableRef]
    exact readable
  have texts : ∀ name, first.refs.lookup name = after.refs.lookup name := by
    intro name
    rw [carriedAgain.advances.refs]
  have origin : start.refs = second.refs := by
    rw [carried.advances.refs, carriedClean.advances.refs]
  have originRef : ∀ name, second.getRef name = start.getRef name := by
    intro name
    rw [carriedClean.get_ref name, carried.get_ref name]
    rfl
  have kept : ∀ id record, start.objects.lookup id = some record →
      second.objects.lookup id = some record := by
    intro id record found
    rw [carriedClean.lookup wholeClean]
    change (if dest.has id then dest.objects.lookup id else source.objects.lookup id) = some record
    rcases carried.carried id with old | ⟨absent, new⟩
    · rw [old] at found
      have present : dest.has id = true := Option.isSome_iff_exists.mpr ⟨record, found⟩
      rw [if_pos present]
      exact found
    · rw [new] at found
      rw [if_neg (Bool.eq_false_iff.mp absent)]
      exact found
  constructor
  · intro id
    rw [moved.only.objects, moved'.only.objects]
    exact objects id
  · intro name
    by_cases among : name ∈ refs.map Prod.fst
    · obtain ⟨⟨_, id⟩, member, rfl⟩ := List.mem_map.mp among
      rename_i name
      obtain ⟨fate, meets⟩ := moved'.met name id member
      have landed := moved'.landed name id fate member meets
      rcases halfway.refs name with same | ⟨target, fate', found, meets', moves, text⟩
      · -- untouched so far: the same fate awaits it
        have here : first.refs.lookup name = second.refs.lookup name := by
          rw [texts name, same, origin]
        have meetsAgain : Meets ls first name id fate :=
          meets.transfer (get_ref_congr here outlook) parents
            fun id => get_of_lookup ls (objects id) unreadable
        rw [landed, moved.landed name id fate member meetsAgain, here]
      · -- it was on its way: now it gets, or already is, where it was going
        rw [(read_refs_mem source refs read name id).mp member] at found
        cases found
        have meetsClean : Meets ls second name id fate' := by
          cases fate' with
          | same | conflicted => cases moves
          | set => exact (originRef name).trans meets'
          | advanced =>
              obtain ⟨old, there, differs, path⟩ := meets'
              exact ⟨old, (originRef name).trans there, differs, path.kept kept⟩
        rw [moved'.landed name id fate' member meetsClean, if_pos moves]
        rcases text with done | ⟨content, cut, blank⟩
        · have here : first.refs.lookup name = some (refText id) := (texts name).trans done
          have meetsAgain : Meets ls first name id .same :=
            get_ref_of_text here (readable' name)
          exact (moved.landed name id .same member meetsAgain).trans here
        · have meetsAgain : Meets ls first name id .set := by
            simp only [Meets, Device.getRef, texts name, cut, readable' name, blank]
          exact moved.landed name id .set member meetsAgain
    · rw [moved.others name among, moved'.others name among, texts name, ← origin]
      rcases halfway.refs name with same | ⟨target, _, found, _⟩
      · exact same
      · exact absurd (List.mem_map_of_mem ((read_refs_mem source refs read name target).mpr found))
          among

end Midway

/-! ## The law -/

/-- A sync leaves the destination usable and a later one makes good for it,
exactly when no call cut off a ref that the destination had. -/
theorem failed_sync_usable_iff (ls : Lifestream) (source dest : Device)
    (troubles : List (Option Trouble)) (alike : Alike ls source dest) (valid : Valid ls dest)
    (sourceWhole : RefsWhole ls source) (destWhole : RefsWhole ls dest)
    (readable : ∀ name, dest.unreadableRef name = none) :
    (Usable ls source dest (finalState (troubledSync ls source dest troubles)).1.devices.2 ∧
        Resumes ls source dest (finalState (troubledSync ls source dest troubles)).1.devices.2) ↔
      ∀ call ∈ (finalState (troubledSync ls source dest troubles)).2, ¬CutsOff dest call := by
  obtain ⟨_, midway⟩ := troubled_midway ls source dest troubles
  constructor
  · rintro ⟨usable, _⟩ call made cuts
    obtain ⟨failed, name, old, content, found, cut, blank⟩ := cut_off_final ls cuts
    rcases recording_failed (troubled ls) sync ⟨(source, dest), troubles⟩ [] call made with none | ok | last
    · cases none
    · rw [failed] at ok
      cases ok
    · rw [← last] at cut
      have gone : (finalState (troubledSync ls source dest troubles)).1.devices.2.getRef name =
          .ok none := by
        have outlook := midway.unreadable_ref
        simp only [troubledSync] at outlook ⊢
        simp only [Device.getRef, cut, outlook, readable, blank]
      rcases usable.refs name with same | ⟨id, _, moved⟩
      · rw [gone, found] at same
        cases same
      · rw [gone] at moved
        cases moved
  · intro uncut
    have named := recording_invariant (troubled ls) (fun state => StillNamed dest state.devices.2)
      (fun call => ¬CutsOff dest call) (still_named_step ls dest) sync ⟨(source, dest), troubles⟩ []
      uncut ⟨readable, fun name old found => ⟨old, found⟩⟩
    exact ⟨midway.usable alike valid sourceWhole destWhole named, midway.resumes readable⟩

/-- The same disk, with other outcomes of its coming writes. -/
def facing (device : Device) (faults : List (Option Fault)) : Device :=
  { device with faults }

/-- A disk that fills up as the new `HEAD` is written: the record of the second
commit has been published, the ref's file truncated. -/
def fullDisk : Device :=
  facing (Device.committed ["one"])
    [none, none, none, some ⟨"No space left on device", some 0⟩]

/-- What is to come changes nothing about the disk as it is. -/
theorem facing_fit (ls : Lifestream) (source dest : Device)
    (faults : List (Option Fault)) (alike : Alike ls source dest) (sound : Sound ls.store dest)
    (sourceWhole : RefsWhole ls source) (destWhole : RefsWhole ls dest)
    (readable : ∀ name, dest.unreadableRef name = none) :
    Alike ls source (facing dest faults) ∧ Valid ls (facing dest faults) ∧
      RefsWhole ls source ∧ RefsWhole ls (facing dest faults) ∧
      ∀ name, (facing dest faults).unreadableRef name = none :=
  ⟨alike, sound_valid sound, sourceWhole, destWhole, readable⟩

theorem full_disk_usable_iff :
    (Usable sampleStore (Device.committed ["one", "two"]) fullDisk
        (finalState (troubledSync sampleStore (Device.committed ["one", "two"]) fullDisk
          [])).1.devices.2 ∧
        Resumes sampleStore (Device.committed ["one", "two"]) fullDisk
          (finalState (troubledSync sampleStore (Device.committed ["one", "two"]) fullDisk
            [])).1.devices.2) ↔
      ∀ call ∈ (finalState (troubledSync sampleStore (Device.committed ["one", "two"]) fullDisk
        [])).2, ¬CutsOff fullDisk call := by
  obtain ⟨alike, valid, sourceWhole, destWhole, readable⟩ := facing_fit sampleStore _ _
    [none, none, none, some ⟨"No space left on device", some 0⟩] two_commits_alike
    ((committed_grows ["one"]).sound (fresh_sound sampleStore.store)) two_commits_whole
    one_commit_whole (committed_healthy ["one"]).unreadableRef
  exact failed_sync_usable_iff sampleStore _ fullDisk [] alike valid sourceWhole destWhole readable

/-- There the destination's `HEAD` is lost. -/
theorem full_disk_loses_head :
    isOk (troubledSync sampleStore (Device.committed ["one", "two"]) fullDisk []) = false ∧
      ¬Usable sampleStore (Device.committed ["one", "two"]) fullDisk
        (finalState (troubledSync sampleStore (Device.committed ["one", "two"]) fullDisk
          [])).1.devices.2 := by
  constructor
  · decide +kernel
  · intro usable
    have before : (fullDisk.getRef headRef).toOption.join.isSome = true := by decide +kernel
    have gone : ((finalState (troubledSync sampleStore (Device.committed ["one", "two"]) fullDisk
        [])).1.devices.2.getRef headRef).toOption.join = none := by decide +kernel
    rcases usable.refs headRef with same | ⟨id, _, moved⟩
    · rw [same] at gone
      rw [gone] at before
      cases before
    · rw [moved] at gone
      cases gone

end HorizonOs.Constellation
