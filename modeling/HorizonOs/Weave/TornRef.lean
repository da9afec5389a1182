import HorizonOs.Weave.Sharing

/-!
# The audit ref half written

A ref is written in place: its file is truncated, then its text goes in. While
a broker's log write is between the two, or was stopped there by a crash, the
file reads as no ref at all, and whoever opens or reloads meanwhile takes the
log for empty.
-/

namespace HorizonOs.Weave

open HorizonOs.Lib.ByteCodec HorizonOs.Lib.Text HorizonOs.Lib.Runs
open HorizonOs.Lifestream

set_option autoImplicit false

/-! ## A ref write in steps -/

/-- Opening the file for writing truncates it. -/
def truncateRef (name : String) (device : Device) : Device :=
  { device with refs := device.refs.insert name [] }

/-- Some of the text is in the file. -/
def landPart (name : String) (id : ObjectId) (count : Nat) (device : Device) : Device :=
  { device with refs := device.refs.insert name ((refText id).dropLast.take count) }

def landRef (name : String) (id : ObjectId) (device : Device) : Device :=
  { device with refs := device.refs.insert name (refText id) }

theorem set_ref_in_steps (name : String) (id : ObjectId) (device : Device)
    (faultless : device.faults = []) :
    setRef name id device = .ok () (landRef name id (truncateRef name device)) := by
  simp only [setRef, faultless, landRef, truncateRef, AList.insert_insert]

/-! ## Brokers at work -/

/-- A log write that has put its entry, before or after it truncates the ref's file. -/
structure LogWrite where
  draw : Draw
  call : Call
  prev : Option ObjectId
  id : ObjectId
  truncated : Bool

/-- What a broker that looked at the log came back with, and beside it where the
log stood, where writes under way were taking it, and its first entry. -/
structure Reading where
  head : Option ObjectId
  coming : List ObjectId
  first : Option ObjectId
  found : Except Error (Broker × Bool)

/-- A store, the brokers on it, and the log write each is in the middle of. The
head that was last written, the first entry and the readings are history. -/
structure Traffic where
  device : Device
  brokers : List Broker
  writing : AList fun _ : Nat => LogWrite
  head : Option ObjectId
  first : Option ObjectId
  readings : List Reading

inductive Act where
  | openBroker (policy : Policy)
  | call (index : Nat) (draw : Draw) (call : Call)
  | truncate (index : Nat)
  | part (index count : Nat)
  | land (index : Nat)
  | crash
  deriving DecidableEq

def Traffic.noted (state : Traffic) (found : Except Error (Broker × Bool)) : Traffic :=
  { state with
    readings := ⟨state.head, state.writing.entries.map fun item => item.2.id, state.first, found⟩ ::
      state.readings }

def Traffic.reread (state : Traffic) (index : Nat) (broker : Broker) : Traffic :=
  match broker.reload state.device with
  | .ok (later, changed) =>
      { state.noted (.ok (later, changed)) with brokers := state.brokers.set index later }
  | .error error => state.noted (.error error)

/-- A call that logs, up to the ref write. -/
def Traffic.begin (state : Traffic) (index : Nat) (broker : Broker) (draw : Draw) (call : Call)
    (event : Event) : Traffic :=
  let prepared := { broker with grants := prepare broker draw call }
  match append broker.ls broker.head broker.seq draw.logNow event state.device with
  | .error _ device => { state with device, brokers := state.brokers.set index prepared }
  | .ok id device =>
      { state with
        device
        brokers := state.brokers.set index prepared
        writing := state.writing.insert index ⟨draw, call, broker.head, id, false⟩ }

/-- The same broker once its log write is done. -/
def LogWrite.settles (write : LogWrite) (broker : Broker) : Broker :=
  { broker with
    head := some write.id
    seq := broker.seq + 1
    grants := settle broker write.draw broker.grants write.call }

def Traffic.landed (state : Traffic) (index : Nat) (write : LogWrite) : Traffic :=
  { state with
    device := landRef auditRef write.id state.device
    brokers :=
      match state.brokers[index]? with
      | some broker => state.brokers.set index (write.settles broker)
      | none => state.brokers
    writing := state.writing.erase index
    head := some write.id
    first := state.first.or (some write.id) }

def trafficStep (ls : Lifestream) (state : Traffic) : Act → Traffic
  | .openBroker policy =>
      match openBroker ls policy state.device with
      | .ok broker =>
          { state.noted (.ok (broker, true)) with brokers := state.brokers ++ [broker] }
      | .error error => state.noted (.error error)
  | .call index draw call =>
      -- a broker in the middle of a call takes no other
      if index ∈ state.writing then state
      else
        match state.brokers[index]? with
        | none => state
        | some broker =>
            if call.isReload then state.reread index broker
            else
              match eventOf broker draw call with
              | some event => state.begin index broker draw call event
              | none =>
                  let after := finalState (perform draw call ⟨broker, state.device, []⟩)
                  { state with brokers := state.brokers.set index after.broker }
  | .truncate index =>
      match state.writing.lookup index with
      | none => state
      | some write =>
          { state with
            device := truncateRef auditRef state.device
            writing := state.writing.insert index { write with truncated := true } }
  | .part index count =>
      match state.writing.lookup index with
      | none => state
      | some write =>
          if write.truncated then
            { state with device := landPart auditRef write.id count state.device }
          else state
  | .land index =>
      match state.writing.lookup index with
      | none => state
      | some write =>
          if write.truncated then state.landed index write else state
  | .crash => { state with brokers := [], writing := ∅ }

/-! ## The steps make up the call -/

/-- On a disk that does not fail, a call that logs does what its three steps do
one after the other. -/
theorem call_in_steps (ls : Lifestream) (state : Traffic) (index : Nat) (broker : Broker)
    (draw : Draw) (call : Call) (event : Event) (journal : List AuditEntry)
    (idle : index ∉ state.writing) (present : state.brokers[index]? = some broker)
    (logs : eventOf broker draw call = some event) (faultless : state.device.faults = []) :
    let after := run (trafficStep ls) state [.call index draw call, .truncate index, .land index]
    let performed := finalState (perform draw call ⟨broker, state.device, journal⟩)
    after.device = performed.device ∧ after.writing = state.writing ∧
      after.brokers = state.brokers.set index performed.broker := by
  have rereads : call.isReload = false := by
    cases call with
    | reload => cases logs
    | _ => rfl
  have advances := advances_append broker.ls broker.head broker.seq draw.logNow event state.device
  have begun : trafficStep ls state (.call index draw call) =
      state.begin index broker draw call event := by
    simp only [trafficStep, if_neg idle, present, rereads, Bool.false_eq_true, if_false, logs]
  have performs := perform_of_event ⟨broker, state.device, journal⟩ draw call event logs
  simp only [run_cons, begun, performs, Traffic.begin, log, Session.withGrants]
  cases appended : append broker.ls broker.head broker.seq draw.logNow event state.device with
  | error error device =>
      have still : state.writing.lookup index = none := AList.lookup_eq_none.mpr idle
      simp only [run_nil, trafficStep, still, final_state_error, and_self]
  | ok id device =>
      rw [appended, final_state_ok] at advances
      have written := set_ref_in_steps auditRef id device (advances.faults faultless)
      have inside : index < state.brokers.length := by
        obtain ⟨bound, _⟩ := List.getElem?_eq_some_iff.mp present
        exact bound
      have erased : ∀ write : LogWrite,
          (state.writing.insert index write).erase index = state.writing := by
        intro write
        apply AList.ext
        change List.kerase index (state.writing.insert index write).entries = state.writing.entries
        rw [AList.entries_insert_of_notMem idle]
        exact List.kerase_cons_eq rfl
      simp only [run_nil, trafficStep, AList.lookup_insert, if_true, Traffic.landed, written,
        AList.insert_insert, List.getElem?_set_self inside, List.set_set, erased, final_answer]
      exact ⟨rfl, trivial, rfl⟩

/-- The ref's file is there and too short for an id. -/
def CutOff (device : Device) : Prop :=
  ((device.refs.lookup auditRef).any fun content => content.length < 64) = true

instance : DecidablePred CutOff := fun device =>
  inferInstanceAs (Decidable (((device.refs.lookup auditRef).any
    fun content => content.length < 64) = true))

/-- Who looked found an error, the head as it was, with the table of a log that
starts where the log did, or a head that was just being written. -/
def Reading.Faithful (reading : Reading) : Prop :=
  ∀ broker replayed, reading.found = .ok (broker, replayed) →
    (broker.head = reading.head ∧ (replayed = true → ∃ entries, broker.grants = tableOf entries ∧
      entries.head?.map AuditEntry.id = reading.first)) ∨
    ∃ id ∈ reading.coming, broker.head = some id

/-- No reading came back empty-handed, and the log still starts where it did. -/
def NothingErased (ls : Lifestream) (state : Traffic) : Prop :=
  (∀ reading ∈ state.readings, reading.Faithful) ∧
    (¬CutOff state.device → ∀ entries, finalChain ls state.device = .ok entries →
      entries.head?.map AuditEntry.id = state.first)

/-- Nobody looks at a ref that is cut off, and nobody sets the ref to a chain
without a predecessor once its file is there. -/
def Calm (state : Traffic) : Act → Prop
  | .openBroker _ => ¬CutOff state.device
  | .call _ _ call => call.isReload = true → ¬CutOff state.device
  | .truncate index => ∀ write, state.writing.lookup index = some write → write.prev = none →
      state.device.refs.lookup auditRef = none
  | _ => True

/-! ## Where chains go back to -/

/-- From here the `prev` children lead back to this first entry. -/
inductive GoesBack (ls : Lifestream) (device : Device) (first : ObjectId) : ObjectId → Prop
  | first (payloadId : ObjectId) (tree : Holds ls device (.tree (entryChildren payloadId none)) first) :
      GoesBack ls device first first
  | next (id prev payloadId : ObjectId)
      (tree : Holds ls device (.tree (entryChildren payloadId (some prev))) id)
      (below : GoesBack ls device first prev) : GoesBack ls device first id

theorem GoesBack.grow {ls : Lifestream} {before after : Device} {first id : ObjectId}
    (back : GoesBack ls before first id) (keeps : Keeps ls.store before after) :
    GoesBack ls after first id := by
  induction back with
  | first payloadId tree => exact .first payloadId (tree.grow keeps)
  | next id prev payloadId tree _ ih => exact .next id prev payloadId (tree.grow keeps) ih

/-- What an entry's tree reads as. -/
theorem read_entry_tree (ls : Lifestream) (device : Device) (id payloadId : ObjectId)
    (prev before : Option ObjectId) (entry : AuditEntry) (sound : Sound ls.store device)
    (free : CollisionFree ls.store device)
    (tree : Holds ls device (.tree (entryChildren payloadId prev)) id)
    (read : readEntry ls device id = .ok (entry, before)) : entry.id = id ∧ before = prev := by
  unfold readEntry at read
  obtain ⟨object, got, rest⟩ := of_bind_ok read
  have same := (get_ok ls device id object (of_from_lifestream got)).1
  rw [contents_of_holds sound free tree] at same
  cases same
  simp only [child_payload, child_prev] at rest
  obtain ⟨data, _, rest⟩ := of_bind_ok rest
  obtain ⟨fields, _, rest⟩ := of_bind_ok rest
  cases rest
  exact ⟨rfl, rfl⟩

/-- A walk that ends has ended at the first entry. -/
theorem walk_goes_back (ls : Lifestream) (device : Device) (first id : ObjectId)
    (sound : Sound ls.store device) (free : CollisionFree ls.store device)
    (back : GoesBack ls device first id) (fuel : Nat) (entries : List AuditEntry)
    (walked : walkChain ls device fuel id = .ok entries) :
    entries.getLast?.map AuditEntry.id = some first := by
  induction back generalizing fuel entries with
  | first payloadId tree =>
      cases fuel with
      | zero => cases walked
      | succ fuel =>
          obtain ⟨⟨entry, before⟩, read, rest⟩ := of_bind_ok walked
          obtain ⟨same, below⟩ := read_entry_tree ls device first payloadId none before entry
            sound free tree read
          subst below
          cases rest
          simp [same]
  | next id prev payloadId tree _ ih =>
      cases fuel with
      | zero => cases walked
      | succ fuel =>
          obtain ⟨⟨entry, before⟩, read, rest⟩ := of_bind_ok walked
          obtain ⟨_, below⟩ := read_entry_tree ls device id payloadId (some prev) before entry
            sound free tree read
          subst below
          obtain ⟨older, walkedOn, rest⟩ := of_bind_ok rest
          cases rest
          have last := ih fuel older walkedOn
          cases older with
          | nil => cases last
          | cons top tail => rwa [List.getLast?_cons_cons]

theorem chain_goes_back (ls : Lifestream) (device : Device) (first id : ObjectId)
    (sound : Sound ls.store device) (free : CollisionFree ls.store device)
    (back : GoesBack ls device first id) (entries : List AuditEntry)
    (read : chainFrom ls device (some id) = .ok entries) :
    entries.head?.map AuditEntry.id = some first := by
  obtain ⟨out, walked, rest⟩ := of_bind_ok read
  cases rest
  rw [List.head?_reverse]
  exact walk_goes_back ls device first id sound free back _ out walked

/-! ## The invariant -/

/-- What the ref's file says of the log. -/
inductive Stands (ls : Lifestream) (state : Traffic) : Prop
  | absent (missing : state.device.refs.lookup auditRef = none) (head : state.head = none)
      (unstarted : state.first = none)
      (idle : ∀ index write, state.writing.lookup index = some write → write.truncated = false)
  | cut (short : CutOff state.device)
  | whole (id first : ObjectId) (text : state.device.refs.lookup auditRef = some (refText id))
      (head : state.head = some id) (started : state.first = some first)
      (back : GoesBack ls state.device first id)

/-- The entry of a log write goes back to the log's first, or starts a log. -/
def LogWrite.Founded (ls : Lifestream) (device : Device) (first : Option ObjectId)
    (write : LogWrite) : Prop :=
  match write.prev with
  | none => GoesBack ls device write.id write.id
  | some _ => ∃ start, first = some start ∧ GoesBack ls device start write.id

structure Anchored (ls : Lifestream) (state : Traffic) : Prop where
  sound : Sound ls.store state.device
  store : ∀ broker ∈ state.brokers, broker.ls = ls
  heads : ∀ broker ∈ state.brokers, ∀ id, broker.head = some id →
    ∃ start, state.first = some start ∧ GoesBack ls state.device start id
  writes : ∀ index write, state.writing.lookup index = some write →
    write.Founded ls state.device state.first
  /-- Only the first log write of all has a file to truncate and no predecessor. -/
  founder : ∀ index write, state.writing.lookup index = some write → write.truncated = true →
    write.prev = none → state.first = none ∧ ∀ other later,
      state.writing.lookup other = some later → later.truncated = true → later.prev = none →
        other = index
  file : Stands ls state
  readings : ∀ reading ∈ state.readings, reading.Faithful

section Step

variable {ls : Lifestream} {state : Traffic}

theorem LogWrite.Founded.grow {before after : Device} {first : Option ObjectId} {write : LogWrite}
    (founded : write.Founded ls before first) (keeps : Keeps ls.store before after) :
    write.Founded ls after first := by
  unfold LogWrite.Founded at founded ⊢
  split at founded
  · exact founded.grow keeps
  · obtain ⟨start, started, back⟩ := founded
    exact ⟨start, started, back.grow keeps⟩

theorem keeps_refs (store : ObjectStore) (device : Device) (refs : AList fun _ : String => Bytes) :
    Keeps store device { device with refs } :=
  ⟨fun _ _ found => found, List.Subset.refl _, fun sound => sound⟩

/-- What whoever looks at a file that is not cut off is pointed at. -/
theorem Anchored.pointed (anchored : Anchored ls state) (whole : ¬CutOff state.device)
    (head : Option ObjectId) (found : state.device.getRef auditRef = .ok head) :
    head = state.head ∧ (head = none → state.first = none) ∧ ∀ id, head = some id →
      ∃ start, state.first = some start ∧ GoesBack ls state.device start id := by
  cases anchored.file with
  | absent missing stood unstarted _ =>
      simp only [Device.getRef, missing] at found
      cases found
      exact ⟨stood.symm, fun _ => unstarted, fun id named => by cases named⟩
  | cut short => exact absurd short whole
  | whole id first text stood started back =>
      simp only [Device.getRef, text] at found
      split at found
      · cases found
      · rw [parse_ref_text] at found
        cases found
        refine ⟨stood.symm, ?_, ?_⟩
        · intro missing
          cases missing
        · intro other same
          cases same
          exact ⟨first, started, back⟩

theorem Anchored.chain (anchored : Anchored ls state) (whole : ¬CutOff state.device)
    (free : CollisionFree ls.store state.device) (head : Option ObjectId)
    (found : state.device.getRef auditRef = .ok head) (entries : List AuditEntry)
    (read : chainFrom ls state.device head = .ok entries) :
    entries.head?.map AuditEntry.id = state.first := by
  obtain ⟨_, unstarted, heads⟩ := anchored.pointed whole head found
  cases head with
  | none =>
      cases read
      exact (unstarted rfl).symm
  | some id =>
      obtain ⟨start, started, back⟩ := heads id rfl
      rw [started]
      exact chain_goes_back ls state.device start id anchored.sound free back entries read

/-- What a look at the log adds to the history. -/
theorem Anchored.noted (anchored : Anchored ls state) (found : Except Error (Broker × Bool))
    (faithful : Reading.Faithful ⟨state.head, state.writing.entries.map fun item => item.2.id,
      state.first, found⟩) : Anchored ls (state.noted found) where
  sound := anchored.sound
  store := anchored.store
  heads := anchored.heads
  writes := anchored.writes
  founder := anchored.founder
  file := by
    cases anchored.file with
    | absent missing head unstarted idle => exact .absent missing head unstarted idle
    | cut short => exact .cut short
    | whole id first text head started back => exact .whole id first text head started back
  readings reading member := by
    rcases List.mem_cons.mp member with rfl | old
    · exact faithful
    · exact anchored.readings reading old

/-- Brokers may come, go and change, as long as their heads go back to the start. -/
theorem Anchored.withBrokers (anchored : Anchored ls state) (brokers : List Broker)
    (store : ∀ broker ∈ brokers, broker.ls = ls)
    (heads : ∀ broker ∈ brokers, ∀ id, broker.head = some id →
      ∃ start, state.first = some start ∧ GoesBack ls state.device start id) :
    Anchored ls { state with brokers } where
  sound := anchored.sound
  store := store
  heads := heads
  writes := anchored.writes
  founder := anchored.founder
  file := by
    cases anchored.file with
    | absent missing head unstarted idle => exact .absent missing head unstarted idle
    | cut short => exact .cut short
    | whole id first text head started back => exact .whole id first text head started back
  readings := anchored.readings

/-- One broker changes and keeps its head. -/
theorem Anchored.withBroker (anchored : Anchored ls state) (index : Nat) (broker later : Broker)
    (present : state.brokers[index]? = some broker) (same : later.ls = broker.ls)
    (head : later.head = broker.head) :
    Anchored ls { state with brokers := state.brokers.set index later } := by
  have member := List.mem_of_getElem? present
  apply anchored.withBrokers
  · intro other inside
    rcases List.mem_or_eq_of_mem_set inside with old | rfl
    · exact anchored.store other old
    · exact same.trans (anchored.store broker member)
  · intro other inside id named
    rcases List.mem_or_eq_of_mem_set inside with old | rfl
    · exact anchored.heads other old id named
    · rw [head] at named
      exact anchored.heads broker member id named

/-- Objects are added. -/
theorem Anchored.advance (anchored : Anchored ls state) (device : Device)
    (advances : Advances ls.store state.device device) : Anchored ls { state with device } where
  sound := advances.sound anchored.sound
  store := anchored.store
  heads broker member id named := by
    obtain ⟨start, started, back⟩ := anchored.heads broker member id named
    exact ⟨start, started, back.grow advances.toKeeps⟩
  writes index write found := (anchored.writes index write found).grow advances.toKeeps
  founder := anchored.founder
  file := by
    cases anchored.file with
    | absent missing head unstarted idle =>
        exact .absent (by rw [advances.refs]; exact missing) head unstarted idle
    | cut short =>
        apply Stands.cut
        rw [CutOff, advances.refs]
        exact short
    | whole id first text head started back =>
        exact .whole id first (by rw [advances.refs]; exact text) head started
          (back.grow advances.toKeeps)
  readings := anchored.readings

theorem anchored_open (anchored : Anchored ls state) (policy : Policy)
    (whole : ¬CutOff state.device) (free : CollisionFree ls.store state.device) :
    Anchored ls (trafficStep ls state (.openBroker policy)) := by
  simp only [trafficStep]
  cases opened : openBroker ls policy state.device with
  | error error =>
      apply anchored.noted
      intro broker replayed same
      cases same
  | ok broker =>
      obtain ⟨head, found, rest⟩ := of_bind_ok opened
      have pointed := of_from_lifestream found
      obtain ⟨⟨table, seq⟩, replayed, ended⟩ := of_bind_ok rest
      obtain ⟨entries, chain, counted⟩ := of_bind_ok replayed
      cases counted
      cases ended
      obtain ⟨stood, _, heads⟩ := anchored.pointed whole head pointed
      have noted := anchored.noted
        (.ok (⟨ls, policy, head, UInt64.ofNat entries.length, tableOf entries⟩, true))
      have faithful := noted ?faithful
      · apply faithful.withBrokers
        · intro other member
          rcases List.mem_append.mp member with old | new
          · exact anchored.store other old
          · rw [List.mem_singleton.mp new]
        · intro other member id named
          rcases List.mem_append.mp member with old | new
          · exact anchored.heads other old id named
          · rw [List.mem_singleton.mp new] at named
            exact heads id named
      case faithful =>
        intro broker replayed same
        cases same
        exact .inl ⟨stood, fun _ => ⟨entries, rfl,
          anchored.chain whole free head pointed entries chain⟩⟩

theorem anchored_reread (anchored : Anchored ls state) (index : Nat) (broker : Broker)
    (present : state.brokers[index]? = some broker) (whole : ¬CutOff state.device)
    (free : CollisionFree ls.store state.device) :
    Anchored ls (state.reread index broker) := by
  have member := List.mem_of_getElem? present
  have store := anchored.store broker member
  simp only [Traffic.reread]
  cases reloaded : broker.reload state.device with
  | error error =>
      apply anchored.noted
      intro broker replayed same
      cases same
  | ok answer =>
      obtain ⟨later, changed⟩ := answer
      obtain ⟨head, found, rest⟩ := of_bind_ok reloaded
      have pointed := of_from_lifestream found
      obtain ⟨stood, _, heads⟩ := anchored.pointed whole head pointed
      have faithful : later.ls = ls ∧ later.head = head ∧ (changed = true →
          ∃ entries, later.grants = tableOf entries ∧
            entries.head?.map AuditEntry.id = state.first) := by
        split at rest
        case isTrue same =>
          cases rest
          exact ⟨store, same.symm, fun unchanged => by cases unchanged⟩
        case isFalse =>
          obtain ⟨⟨table, seq⟩, replayed, ended⟩ := of_bind_ok rest
          obtain ⟨entries, chain, counted⟩ := of_bind_ok replayed
          cases counted
          cases ended
          rw [store] at chain
          exact ⟨store, rfl, fun _ => ⟨entries, rfl,
            anchored.chain whole free head pointed entries chain⟩⟩
      obtain ⟨same, named, table⟩ := faithful
      have noted := anchored.noted (.ok (later, changed)) ?faithful
      · apply noted.withBrokers
        · intro other inside
          rcases List.mem_or_eq_of_mem_set inside with old | rfl
          · exact anchored.store other old
          · exact same
        · intro other inside id topped
          rcases List.mem_or_eq_of_mem_set inside with old | rfl
          · exact anchored.heads other old id topped
          · rw [named] at topped
            exact heads id topped
      case faithful =>
        intro broker replayed answered
        cases answered
        exact .inl ⟨named.trans stood, table⟩

/-- A log write first puts its entry on top of what the broker knows as the head. -/
theorem append_founds (ls : Lifestream) (prev : Option ObjectId) (seq timeUnix : UInt64)
    (event : Event) (device after : Device) (id : ObjectId)
    (appended : append ls prev seq timeUnix event device = .ok id after) :
    ∃ payloadId, Holds ls after (.tree (entryChildren payloadId prev)) id := by
  simp only [append, bind_apply] at appended
  split at appended
  case h_2 => contradiction
  case h_1 payloadId between wrote =>
    exact ⟨payloadId, put_holds ls _ (children_fit payloadId prev) between after id appended⟩

theorem anchored_begin (anchored : Anchored ls state) (index : Nat) (broker : Broker) (draw : Draw)
    (call : Call) (event : Event) (present : state.brokers[index]? = some broker)
    (idle : index ∉ state.writing) : Anchored ls (state.begin index broker draw call event) := by
  have member := List.mem_of_getElem? present
  have store := anchored.store broker member
  subst store
  have advances := advances_append broker.ls broker.head broker.seq draw.logNow event state.device
  simp only [Traffic.begin]
  cases appended : append broker.ls broker.head broker.seq draw.logNow event state.device with
  | error error device =>
      rw [appended, final_state_error] at advances
      exact (anchored.advance device advances).withBroker index broker _ present rfl rfl
  | ok id device =>
      rw [appended, final_state_ok] at advances
      obtain ⟨payloadId, tree⟩ := append_founds broker.ls broker.head broker.seq draw.logNow event
        state.device device id appended
      have grown := (anchored.advance device advances).withBroker index broker
        { broker with grants := prepare broker draw call } present rfl rfl
      have founded : LogWrite.Founded broker.ls device state.first
          ⟨draw, call, broker.head, id, false⟩ := by
        unfold LogWrite.Founded
        cases head : broker.head with
        | none =>
            rw [head] at tree
            exact .first payloadId tree
        | some prev =>
            rw [head] at tree
            obtain ⟨start, started, back⟩ := anchored.heads broker member prev head
            exact ⟨start, started, .next id prev payloadId tree (back.grow advances.toKeeps)⟩
      -- a write that has not truncated the file yet touches nothing the file says
      have old : ∀ other write, other ≠ index →
          (state.writing.insert index ⟨draw, call, broker.head, id, false⟩).lookup other =
            some write → state.writing.lookup other = some write := by
        intro other write apart found
        rwa [AList.lookup_insert_ne apart] at found
      simp only
      constructor
      case sound => exact grown.sound
      case store => exact grown.store
      case heads => exact grown.heads
      case readings => exact grown.readings
      case writes =>
        intro other write found
        by_cases same : other = index
        · subst same
          rw [AList.lookup_insert] at found
          cases found
          exact founded
        · exact grown.writes other write (old other write same found)
      case founder =>
        intro other write found truncated fresh
        have apart : other ≠ index := by
          rintro rfl
          rw [AList.lookup_insert] at found
          cases found
          cases truncated
        obtain ⟨unstarted, alone⟩ := grown.founder other write (old other write apart found)
          truncated fresh
        refine ⟨unstarted, ?_⟩
        intro third later found' truncated' fresh'
        have apart' : third ≠ index := by
          rintro rfl
          rw [AList.lookup_insert] at found'
          cases found'
          cases truncated'
        exact alone third later (old third later apart' found') truncated' fresh'
      case file =>
        cases grown.file with
        | absent missing head unstarted still =>
            refine Stands.absent missing head unstarted ?_
            intro other write found
            by_cases same : other = index
            · subst same
              rw [AList.lookup_insert] at found
              cases found
              rfl
            · exact still other write (old other write same found)
        | cut short => exact .cut short
        | whole id' first text head started back => exact .whole id' first text head started back

/-- Only a log without a file may be started. -/
theorem anchored_truncate (anchored : Anchored ls state) (index : Nat)
    (calm : Calm state (.truncate index)) :
    Anchored ls (trafficStep ls state (.truncate index)) := by
  simp only [trafficStep]
  cases found : state.writing.lookup index with
  | none => exact anchored
  | some write =>
      have keeps := keeps_refs ls.store state.device (state.device.refs.insert auditRef [])
      have kept : ∀ other later,
          (state.writing.insert index { write with truncated := true }).lookup other = some later →
          ∃ before, state.writing.lookup other = some before ∧ later.prev = before.prev ∧
            later.id = before.id ∧ (other ≠ index → later = before) := by
        intro other later found'
        by_cases same : other = index
        · subst same
          rw [AList.lookup_insert] at found'
          cases found'
          exact ⟨write, found, rfl, rfl, fun apart => absurd rfl apart⟩
        · rw [AList.lookup_insert_ne same] at found'
          exact ⟨later, found', rfl, rfl, fun _ => rfl⟩
      -- a file that is missing has no write under way
      have missing : write.prev = none → state.first = none ∧ ∀ other later,
          state.writing.lookup other = some later → later.truncated = false := by
        intro fresh
        have absent := calm write found fresh
        cases anchored.file with
        | absent _ _ unstarted idle => exact ⟨unstarted, idle⟩
        | cut short =>
            rw [CutOff, absent] at short
            cases short
        | whole id first text _ _ _ =>
            rw [absent] at text
            cases text
      constructor
      case sound => exact keeps.sound anchored.sound
      case store => exact anchored.store
      case heads =>
        intro broker member id named
        obtain ⟨start, started, back⟩ := anchored.heads broker member id named
        exact ⟨start, started, back.grow keeps⟩
      case readings => exact anchored.readings
      case writes =>
        intro other later found'
        obtain ⟨before, there, prev, id, _⟩ := kept other later found'
        have founded := (anchored.writes other before there).grow keeps
        rw [LogWrite.Founded, ← prev, ← id] at founded
        exact founded
      case founder =>
        intro other later found' truncated fresh
        obtain ⟨before, there, prev, _, elsewhere⟩ := kept other later found'
        by_cases same : other = index
        · subst same
          rw [found] at there
          cases there
          obtain ⟨unstarted, idle⟩ := missing (prev.symm.trans fresh)
          refine ⟨unstarted, ?_⟩
          intro third last found'' truncated' _
          by_contra apart
          obtain ⟨_, there', _, _, same'⟩ := kept third last found''
          rw [← same' apart] at there'
          rw [idle third last there'] at truncated'
          cases truncated'
        · rw [elsewhere same] at truncated fresh
          obtain ⟨unstarted, alone⟩ := anchored.founder other before there truncated fresh
          refine ⟨unstarted, ?_⟩
          intro third last found'' truncated' fresh'
          obtain ⟨before', there', prev', _, elsewhere'⟩ := kept third last found''
          by_cases same' : third = index
          · subst same'
            rw [found] at there'
            cases there'
            have idle := (missing (prev'.symm.trans fresh')).2 other before there
            rw [idle] at truncated
            cases truncated
          · rw [elsewhere' same'] at truncated' fresh'
            exact alone third before' there' truncated' fresh'
      case file =>
        apply Stands.cut
        rw [CutOff, truncateRef, AList.lookup_insert]
        rfl

theorem anchored_part (anchored : Anchored ls state) (index count : Nat) :
    Anchored ls (trafficStep ls state (.part index count)) := by
  simp only [trafficStep]
  cases found : state.writing.lookup index with
  | none => exact anchored
  | some write =>
      simp only
      split
      case isFalse => exact anchored
      case isTrue =>
        have keeps := keeps_refs ls.store state.device
          (state.device.refs.insert auditRef ((refText write.id).dropLast.take count))
        constructor
        case sound => exact keeps.sound anchored.sound
        case store => exact anchored.store
        case heads =>
          intro broker member id named
          obtain ⟨start, started, back⟩ := anchored.heads broker member id named
          exact ⟨start, started, back.grow keeps⟩
        case readings => exact anchored.readings
        case writes =>
          intro other later found'
          exact (anchored.writes other later found').grow keeps
        case founder => exact anchored.founder
        case file =>
          have short : ((refText write.id).dropLast.take count).length < 64 := by
            rw [List.length_take, List.length_dropLast, ref_text_length]
            omega
          apply Stands.cut
          rw [CutOff, landPart, AList.lookup_insert]
          exact decide_eq_true short

theorem anchored_landed (anchored : Anchored ls state) (index : Nat) (write : LogWrite)
    (found : state.writing.lookup index = some write) (truncated : write.truncated = true) :
    Anchored ls (state.landed index write) := by
  have keeps := keeps_refs ls.store state.device
    (state.device.refs.insert auditRef (refText write.id))
  have founded := anchored.writes index write found
  -- the log now starts where it did, or with this entry
  obtain ⟨start, started, back, same⟩ : ∃ start,
      state.first.or (some write.id) = some start ∧
        GoesBack ls state.device start write.id ∧
        (state.first = some start ∨ state.first = none ∧ write.prev = none) := by
    unfold LogWrite.Founded at founded
    cases prev : write.prev with
    | none =>
        rw [prev] at founded
        have unstarted := (anchored.founder index write found truncated prev).1
        exact ⟨write.id, by rw [unstarted]; rfl, founded, .inr ⟨unstarted, rfl⟩⟩
    | some before =>
        rw [prev] at founded
        obtain ⟨start, started, back⟩ := founded
        exact ⟨start, by rw [started]; rfl, back, .inl started⟩
  have older : ∀ first, state.first = some first → first = start := by
    intro first named
    rw [named] at started
    exact Option.some.inj started
  have member : ∀ other ∈ (state.landed index write).brokers, other ∈ state.brokers ∨
      ∃ broker ∈ state.brokers, other = write.settles broker := by
    intro other inside
    simp only [Traffic.landed] at inside
    cases present : state.brokers[index]? with
    | none =>
        rw [present] at inside
        exact .inl inside
    | some broker =>
        rw [present] at inside
        rcases List.mem_or_eq_of_mem_set inside with old | rfl
        · exact .inl old
        · exact .inr ⟨broker, List.mem_of_getElem? present, rfl⟩
  have left : ∀ other later, (state.writing.erase index).lookup other = some later →
      other ≠ index ∧ state.writing.lookup other = some later := by
    intro other later found'
    by_cases same : other = index
    · subst same
      rw [AList.lookup_erase] at found'
      cases found'
    · rw [AList.lookup_erase_ne same] at found'
      exact ⟨same, found'⟩
  constructor
  case sound => exact keeps.sound anchored.sound
  case store =>
    intro other inside
    rcases member other inside with old | ⟨broker, old, rfl⟩
    · exact anchored.store other old
    · exact anchored.store broker old
  case heads =>
    intro other inside id named
    rcases member other inside with old | ⟨broker, old, rfl⟩
    · obtain ⟨first, was, back'⟩ := anchored.heads other old id named
      rw [older first was] at back'
      exact ⟨start, started, back'.grow keeps⟩
    · cases named
      exact ⟨start, started, back.grow keeps⟩
  case readings => exact anchored.readings
  case writes =>
    intro other later found'
    obtain ⟨_, there⟩ := left other later found'
    have founded' := (anchored.writes other later there).grow keeps
    unfold LogWrite.Founded at founded' ⊢
    split at founded'
    · exact founded'
    · obtain ⟨first, was, back'⟩ := founded'
      rw [older first was] at back'
      exact ⟨start, started, back'⟩
  case founder =>
    intro other later found' truncated' fresh
    obtain ⟨apart, there⟩ := left other later found'
    obtain ⟨unstarted, alone⟩ := anchored.founder other later there truncated' fresh
    rcases same with was | ⟨_, prev⟩
    · rw [unstarted] at was
      cases was
    · exact absurd (alone index write found truncated prev).symm apart
  case file =>
    apply Stands.whole write.id start
    · exact AList.lookup_insert _
    · rfl
    · exact started
    · exact back.grow keeps

theorem anchored_crash (anchored : Anchored ls state) :
    Anchored ls (trafficStep ls state .crash) where
  sound := anchored.sound
  store broker member := by cases member
  heads broker member := by cases member
  writes index write found := by cases found
  founder index write found := by cases found
  file := by
    cases anchored.file with
    | absent missing head unstarted _ =>
        refine .absent missing head unstarted ?_
        intro index write found
        cases found
    | cut short => exact .cut short
    | whole id first text head started back => exact .whole id first text head started back
  readings := anchored.readings

theorem anchored_step (anchored : Anchored ls state) (act : Act) (calm : Calm state act)
    (free : CollisionFree ls.store state.device) : Anchored ls (trafficStep ls state act) := by
  cases act with
  | openBroker policy => exact anchored_open anchored policy calm free
  | truncate index => exact anchored_truncate anchored index calm
  | part index count => exact anchored_part anchored index count
  | crash => exact anchored_crash anchored
  | land index =>
      simp only [trafficStep]
      cases found : state.writing.lookup index with
      | none => exact anchored
      | some write =>
          simp only
          split
          case isTrue truncated => exact anchored_landed anchored index write found truncated
          case isFalse => exact anchored
  | call index draw call =>
      simp only [trafficStep]
      split
      case isTrue => exact anchored
      case isFalse idle =>
        cases present : state.brokers[index]? with
        | none => exact anchored
        | some broker =>
            simp only
            split
            case isTrue rereads => exact anchored_reread anchored index broker present (calm rereads) free
            case isFalse other =>
              cases logs : eventOf broker draw call with
              | some event => exact anchored_begin anchored index broker draw call event present idle
              | none =>
                  obtain ⟨grants, after, _⟩ := perform_silent ⟨broker, state.device, []⟩ draw call
                    logs (by simpa using other)
                  simp only [after]
                  exact anchored.withBroker index broker _ present rfl rfl

end Step

/-! ## Runs -/

def Traffic.OneStore (ls : Lifestream) (state : Traffic) : Prop :=
  ∀ broker ∈ state.brokers, broker.ls = ls

theorem traffic_step_store (ls : Lifestream) (state : Traffic) (act : Act)
    (store : state.OneStore ls) :
    (trafficStep ls state act).OneStore ls ∧
      Keeps ls.store state.device (trafficStep ls state act).device := by
  have replaced : ∀ index later, later.ls = ls →
      ∀ broker ∈ state.brokers.set index later, broker.ls = ls := by
    intro index later same broker member
    rcases List.mem_or_eq_of_mem_set member with old | rfl
    · exact store broker old
    · exact same
  have refl := Keeps.refl ls.store state.device
  cases act with
  | openBroker policy =>
      simp only [trafficStep]
      cases opened : openBroker ls policy state.device with
      | error error => exact ⟨store, refl⟩
      | ok broker =>
          refine ⟨?_, refl⟩
          intro other member
          rcases List.mem_append.mp member with old | new
          · exact store other old
          · rw [List.mem_singleton.mp new]
            exact open_broker_ls ls policy state.device broker opened
  | truncate index =>
      simp only [trafficStep]
      cases state.writing.lookup index with
      | none => exact ⟨store, refl⟩
      | some write => exact ⟨store, keeps_refs ls.store state.device _⟩
  | part index count =>
      simp only [trafficStep]
      cases state.writing.lookup index with
      | none => exact ⟨store, refl⟩
      | some write =>
          simp only
          split
          case isTrue => exact ⟨store, keeps_refs ls.store state.device _⟩
          case isFalse => exact ⟨store, refl⟩
  | land index =>
      simp only [trafficStep]
      cases state.writing.lookup index with
      | none => exact ⟨store, refl⟩
      | some write =>
          simp only
          split
          case isFalse => exact ⟨store, refl⟩
          case isTrue =>
            refine ⟨?_, keeps_refs ls.store state.device _⟩
            simp only [Traffic.OneStore, Traffic.landed]
            cases present : state.brokers[index]? with
            | none => exact store
            | some broker => exact replaced index _ (store broker (List.mem_of_getElem? present))
  | crash =>
      refine ⟨?_, refl⟩
      intro broker member
      cases member
  | call index draw call =>
      simp only [trafficStep]
      split
      case isTrue => exact ⟨store, refl⟩
      case isFalse =>
        cases present : state.brokers[index]? with
        | none => exact ⟨store, refl⟩
        | some broker =>
            have same := store broker (List.mem_of_getElem? present)
            subst same
            simp only
            split
            case isTrue =>
              simp only [Traffic.reread]
              cases reloaded : broker.reload state.device with
              | error error => exact ⟨store, refl⟩
              | ok answer => exact ⟨replaced index _ (reload_ls reloaded), refl⟩
            case isFalse other =>
              cases logs : eventOf broker draw call with
              | none =>
                  obtain ⟨grants, after, _⟩ := perform_silent ⟨broker, state.device, []⟩ draw call
                    logs (by simpa using other)
                  simp only [after]
                  exact ⟨replaced index _ rfl, refl⟩
              | some event =>
                  have advances := advances_append broker.ls broker.head broker.seq draw.logNow
                    event state.device
                  simp only [Traffic.begin]
                  cases appended : append broker.ls broker.head broker.seq draw.logNow event
                      state.device with
                  | error error device =>
                      rw [appended] at advances
                      exact ⟨replaced index _ rfl, advances.toKeeps⟩
                  | ok id device =>
                      rw [appended] at advances
                      exact ⟨replaced index _ rfl, advances.toKeeps⟩

theorem anchored_erases_nothing {ls : Lifestream} {state : Traffic}
    (anchored : Anchored ls state) (free : CollisionFree ls.store state.device) :
    NothingErased ls state := by
  refine ⟨anchored.readings, ?_⟩
  intro whole entries read
  obtain ⟨head, found, chain⟩ := of_bind_ok read
  exact anchored.chain whole free head (of_from_lifestream found) entries chain

/-- A store before any broker is opened on it. -/
def Traffic.start (device : Device) (head first : Option ObjectId) : Traffic :=
  ⟨device, [], ∅, head, first, []⟩

instance : ∀ state act, Decidable (Calm state act)
  | _, .openBroker _ => inferInstanceAs (Decidable (¬CutOff _))
  | _, .call _ _ _ => inferInstanceAs (Decidable (_ → ¬CutOff _))
  | state, .truncate index =>
      match found : state.writing.lookup index with
      | none => isTrue fun write present => by rw [found] at present; contradiction
      | some write =>
          decidable_of_iff (write.prev = none → state.device.refs.lookup auditRef = none)
            ⟨fun holds other present => by
              rw [found] at present
              cases present
              exact holds,
            fun calm => calm write found⟩
  | _, .part _ _ => isTrue trivial
  | _, .land _ => isTrue trivial
  | _, .crash => isTrue trivial

/-- A broker grants `/data`, up to the end of its log write. -/
def grantActs : List Act :=
  [.openBroker .denyAll,
    .call 0 (sampleDraw 10 1) (.grant "app" (samplePath "/data") Rights.READ Limits.none),
    .truncate 0, .part 0 10, .land 0]

/-- A second broker opens after that and revokes the grant, and a crash and a
third broker follow. -/
def calmActs : List Act :=
  grantActs ++ [.openBroker .denyAll, .call 1 (sampleDraw 11 2) (.revoke (sampleId 1)),
    .truncate 1, .land 1, .crash, .openBroker .denyAll]

/-- The second broker opens while the revocation's log write has the file cut
off, and then logs a grant of its own. -/
def tornActs : List Act :=
  grantActs ++ [.call 0 (sampleDraw 11 2) (.revoke (sampleId 1)), .truncate 0,
    .openBroker .denyAll, .land 0,
    .call 1 (sampleDraw 12 3) (.grant "app" (samplePath "/more") Rights.READ Limits.none),
    .truncate 1, .land 1]

/-- The crash comes while the file is cut off. -/
def crashActs : List Act :=
  grantActs ++ [.call 0 (sampleDraw 11 2) (.revoke (sampleId 1)), .truncate 0, .crash,
    .openBroker .denyAll]

/-- A reading that saw no log where there was one. -/
def Reading.blind (reading : Reading) : Bool :=
  match reading.found with
  | .ok (broker, _) => broker.head.isNone && reading.head.isSome
  | .error _ => false

theorem Reading.blind.unfaithful {reading : Reading} (blind : reading.blind = true) :
    ¬reading.Faithful := by
  intro faithful
  unfold Reading.blind at blind
  cases found : reading.found with
  | error error =>
      rw [found] at blind
      cases blind
  | ok answer =>
      obtain ⟨broker, replayed⟩ := answer
      rw [found] at blind
      simp only [Bool.and_eq_true, Option.isNone_iff_eq_none] at blind
      rcases faithful broker replayed found with ⟨same, _⟩ | ⟨id, _, same⟩
      · rw [← same, blind.1] at blind
        cases blind.2
      · rw [blind.1] at same
        cases same

end HorizonOs.Weave
