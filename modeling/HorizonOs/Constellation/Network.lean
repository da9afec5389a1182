import HorizonOs.Constellation.Wire
import HorizonOs.Constellation.SyncLaws
import HorizonOs.Lifestream.Sample

/-!
# The network peer

A peer reached over the wire: each call is one request, which the server runs
against its own store and answers with one response. Within the lengths that a
frame can hold it answers as the store itself does, an error as its text, and a
sync between two such peers does what it does between the stores.
-/

namespace HorizonOs.Constellation

open HorizonOs.Lib.ByteCodec HorizonOs.Lib.Text HorizonOs.Lib.Runs HorizonOs.Lib.Programs
open HorizonOs.Lib.Search
open HorizonOs.Lifestream

set_option autoImplicit false

/-! ## The server -/

/-- A result as a response; an error becomes its text. -/
def respond {σ α : Type} (shape : α → Resp) : EStateM.Result Error σ α → Resp × σ
  | .ok value later => (shape value, later)
  | .error error later => (.err error.display, later)

/-- Run one request against the peer that is served. -/
def handle {σ : Type} (serve : Transport σ) : Req → σ → Resp × σ
  | .haveIds, state => respond Resp.haveIds (serve .haveIds state)
  | .read id, state => respond Resp.record (serve (.readRecord id) state)
  | .write id record, state => respond Resp.wrote (serve (.writeRecord id record) state)
  | .refs, state => respond Resp.refs (serve .refs state)
  | .getRef name, state => respond Resp.ref (serve (.getRef name) state)
  | .setRef name id, state => respond (fun _ => Resp.did) (serve (.setRef name id) state)
  | .parents id, state => respond Resp.parents (serve (.parents id) state)
  | .bye, state => (.did, state)

/-! ## The client -/

/-- `NetworkTransport::call`, with what the server does in between. A request
that the server cannot read ends the session. -/
def exchange {σ : Type} (rt : Runtime) (serve : Transport σ) (req : Req) :
    EStateM Error σ Resp := fun state =>
  match Req.decode rt req.encode with
  | .error _ => .error (.net rt.closed) state
  | .ok asked =>
      match Resp.decode rt (handle serve asked state).1.encode with
      | .ok resp => .ok resp (handle serve asked state).2
      | .error error => .error error (handle serve asked state).2

/-- A response of the wrong kind, as an error. -/
def unexpected : Resp → Error
  | .err message => .net message
  | _ => .net "unexpected reply from peer"

def requestOf : TransportCall → Req
  | .haveIds => .haveIds
  | .readRecord id => .read id
  | .writeRecord id record => .write id record
  | .refs => .refs
  | .getRef name => .getRef name
  | .setRef name id => .setRef name id
  | .parents id => .parents id

def replyOf (rt : Runtime) : ∀ call : TransportCall, Resp → Except Error (TransportReply call)
  | .haveIds, .haveIds ids => .ok (rt.collect ids)
  | .haveIds, other => .error (unexpected other)
  | .readRecord _, .record bytes => .ok bytes
  | .readRecord _, other => .error (unexpected other)
  | .writeRecord _ _, .wrote flag => .ok flag
  | .writeRecord _ _, other => .error (unexpected other)
  | .refs, .refs pairs => .ok pairs
  | .refs, other => .error (unexpected other)
  | .getRef _, .ref target => .ok target
  | .getRef _, other => .error (unexpected other)
  | .setRef _ _, .did => .ok ()
  | .setRef _ _, other => .error (unexpected other)
  | .parents _, .parents found => .ok found
  | .parents _, other => .error (unexpected other)

/-- `NetworkTransport`, connected to a server of this peer. -/
def networkTransport {σ : Type} (rt : Runtime) (serve : Transport σ) : Transport σ :=
  fun call state =>
    match exchange rt serve (requestOf call) state with
    | .ok resp later =>
        match replyOf rt call resp with
        | .ok reply => .ok reply later
        | .error error => .error error later
    | .error error later => .error error later

/-! ## One call -/

/-- An error as it arrives at the other end. -/
def netError (error : Error) : Error := .net error.display

/-- The same answer; a set may be walked in another order. -/
def SameReply : ∀ call : TransportCall, TransportReply call → TransportReply call → Prop
  | .haveIds, left, right => left.Perm right
  | .readRecord _, left, right => left = right
  | .writeRecord _ _, left, right => left = right
  | .refs, left, right => left = right
  | .getRef _, left, right => left = right
  | .setRef _ _, left, right => left = right
  | .parents _, left, right => left = right

/-- The same outcome, but for an error that arrives as its text. -/
def Refines {σ : Type} (call : TransportCall)
    (got expected : EStateM.Result Error σ (TransportReply call)) : Prop :=
  match expected with
  | .ok reply later => ∃ answer, got = .ok answer later ∧ SameReply call answer reply
  | .error error later => got = .error (netError error) later

/-- The answer fits a frame. -/
def ReplyFits : ∀ call : TransportCall, TransportReply call → Prop
  | .haveIds, ids => ids.length < 2 ^ 32
  | .readRecord _, bytes => bytes.length < 2 ^ 32
  | .writeRecord _ _, _ => True
  | .refs, pairs => pairs.length < 2 ^ 32 ∧ ∀ pair ∈ pairs, StrFits pair.1
  | .getRef _, _ => True
  | .setRef _ _, _ => True
  | .parents _, found => ∀ ids ∈ found, ids.length < 2 ^ 32

/-- The call and what comes of it are within the lengths of a frame. -/
def Fits {σ : Type} (serve : Transport σ) (call : TransportCall) (state : σ) : Prop :=
  (requestOf call).Fits ∧
    match serve call state with
    | .ok reply _ => ReplyFits call reply
    | .error error _ => StrFits error.display

instance : DecidablePred Req.Fits
  | .haveIds | .read _ | .refs | .parents _ | .bye => isTrue trivial
  | .write _ record => inferInstanceAs (Decidable (record.length < 2 ^ 32))
  | .getRef name | .setRef name _ => inferInstanceAs (Decidable (StrFits name))

instance : ∀ call, DecidablePred (ReplyFits call)
  | .haveIds => fun ids => inferInstanceAs (Decidable (ids.length < 2 ^ 32))
  | .readRecord _ => fun bytes => inferInstanceAs (Decidable (bytes.length < 2 ^ 32))
  | .writeRecord _ _ | .getRef _ | .setRef _ _ => fun _ => isTrue trivial
  | .refs => fun pairs =>
      inferInstanceAs (Decidable (pairs.length < 2 ^ 32 ∧ ∀ pair ∈ pairs, StrFits pair.1))
  | .parents _ => fun found =>
      inferInstanceAs (Decidable (∀ ids ∈ found, ids.length < 2 ^ 32))

instance {σ : Type} (serve : Transport σ) (call : TransportCall) (state : σ) :
    Decidable (Fits serve call state) := by
  unfold Fits
  exact match serve call state with
    | .ok reply _ => inferInstanceAs (Decidable (_ ∧ ReplyFits call reply))
    | .error error _ => inferInstanceAs (Decidable (_ ∧ StrFits error.display))

theorem exchange_fits {σ : Type} (rt : Runtime) (serve : Transport σ) (req : Req) (state : σ)
    (asks : req.Fits) (answers : (handle serve req state).1.Fits) :
    exchange rt serve req state = .ok (handle serve req state).1 (handle serve req state).2 := by
  simp only [exchange, decode_encode_req rt req asks, decode_encode_resp rt _ answers]

/-- The server's response to a call is its result, shaped. -/
theorem network_call {σ : Type} (rt : Runtime) (serve : Transport σ) (call : TransportCall)
    (state : σ) (shape : TransportReply call → Resp) (fits : Fits serve call state)
    (handled : handle serve (requestOf call) state = respond shape (serve call state))
    (shaped : ∀ reply, ReplyFits call reply → (shape reply).Fits)
    (failed : ∀ message, replyOf rt call (.err message) = .error (.net message)) :
    networkTransport rt serve call state =
      match serve call state with
      | .ok reply later =>
          match replyOf rt call (shape reply) with
          | .ok got => .ok got later
          | .error error => .error error later
      | .error error later => .error (netError error) later := by
  obtain ⟨asks, answers⟩ := fits
  have whole : (handle serve (requestOf call) state).1.Fits := by
    rw [handled]
    cases outcome : serve call state with
    | ok reply later =>
        rw [outcome] at answers
        exact shaped reply answers
    | error error later =>
        rw [outcome] at answers
        exact answers
  simp only [networkTransport, exchange_fits rt serve _ state asks whole, handled]
  cases serve call state with
  | ok reply later => rfl
  | error error later =>
      simp only [respond, failed]
      rfl

/-- Any call over the wire gives what the served peer gives. -/
theorem network_refines {σ : Type} (rt : Runtime) (serve : Transport σ) (call : TransportCall)
    (state : σ) (fits : Fits serve call state)
    (set : ∀ reply later, call = .haveIds → serve .haveIds state = .ok reply later → reply.Nodup) :
    Refines call (networkTransport rt serve call state) (serve call state) := by
  cases call with
  | haveIds =>
      rw [network_call rt serve .haveIds state Resp.haveIds fits rfl (fun _ fits => fits) fun _ => rfl]
      cases outcome : serve .haveIds state with
      | error error later => rfl
      | ok ids later =>
          have once := set ids later rfl outcome
          refine ⟨rt.collect ids, rfl, ?_⟩
          have same := rt.collects ids
          rwa [List.Nodup.dedup once] at same
  | readRecord id =>
      rw [network_call rt serve (.readRecord id) state Resp.record fits rfl (fun _ fits => fits) fun _ => rfl]
      cases serve (.readRecord id) state with
      | ok reply later => exact ⟨reply, rfl, rfl⟩
      | error error later => rfl
  | writeRecord id record =>
      rw [network_call rt serve (.writeRecord id record) state Resp.wrote fits rfl (fun _ _ => trivial) fun _ => rfl]
      cases serve (.writeRecord id record) state with
      | ok reply later => exact ⟨reply, rfl, rfl⟩
      | error error later => rfl
  | refs =>
      rw [network_call rt serve .refs state Resp.refs fits rfl (fun _ fits => fits) fun _ => rfl]
      cases serve .refs state with
      | ok reply later => exact ⟨reply, rfl, rfl⟩
      | error error later => rfl
  | getRef name =>
      rw [network_call rt serve (.getRef name) state Resp.ref fits rfl (fun _ _ => trivial) fun _ => rfl]
      cases serve (.getRef name) state with
      | ok reply later => exact ⟨reply, rfl, rfl⟩
      | error error later => rfl
  | setRef name id =>
      rw [network_call rt serve (.setRef name id) state (fun _ => Resp.did) fits rfl (fun _ _ => trivial)
        fun _ => rfl]
      cases serve (.setRef name id) state with
      | ok reply later => exact ⟨reply, rfl, rfl⟩
      | error error later => rfl
  | parents id =>
      rw [network_call rt serve (.parents id) state Resp.parents fits rfl (fun _ fits => fits) fun _ => rfl]
      cases serve (.parents id) state with
      | ok reply later => exact ⟨reply, rfl, rfl⟩
      | error error later => rfl

/-! ## The order of a set -/

instance : Std.Total idLe := ⟨fun _ _ => Nat.le_total _ _⟩

instance : IsTrans ObjectId idLe := ⟨fun _ _ _ near far => Nat.le_trans near far⟩

instance : Std.Antisymm idLe :=
  ⟨fun left right below above => FixedBytes.ext (decode_be_injective left.bytes right.bytes
    (left.size.trans right.size.symm) (Nat.le_antisymm below above))⟩

/-- What is missing does not depend on the order in which sets are walked. -/
theorem missing_perm {source source' dest dest' : List ObjectId} (sources : source.Perm source')
    (dests : dest.Perm dest') : missing source dest = missing source' dest' := by
  have same : source.filter (· ∉ dest) = source.filter (· ∉ dest') := by
    apply List.filter_congr
    intro id _
    simp only [dests.mem_iff]
  have filtered : (source.filter (· ∉ dest)).Perm (source'.filter (· ∉ dest')) := by
    rw [same]
    exact sources.filter _
  apply List.Perm.eq_of_pairwise' (r := idLe)
  · exact List.pairwise_insertionSort idLe _
  · exact List.pairwise_insertionSort idLe _
  · exact (List.perm_insertionSort idLe _).trans
      (filtered.trans (List.perm_insertionSort idLe _).symm)

/-- What a sync does once both sides are listed. -/
def syncFrom (source dest : List ObjectId) : SyncProgram SyncReport := do
  let report ← (missing source dest).foldlM transferOne (startReport source dest)
  syncRefs report

theorem sync_lists_first :
    sync = askSource .haveIds >>= fun source => askDestination .haveIds >>= syncFrom source := rfl

theorem sync_from_perm {source source' dest dest' : List ObjectId} (sources : source.Perm source')
    (dests : dest.Perm dest') : syncFrom source dest = syncFrom source' dest' := by
  have started : startReport source dest = startReport source' dest' := by
    rw [startReport, sources.length_eq, dests.length_eq]
    rfl
  rw [syncFrom, missing_perm sources dests, started]
  rfl

/-- After that it lists nothing again. -/
theorem sync_from_only (source dest : List ObjectId) :
    (syncFrom source dest).Only fun request : SyncCall => request.2 ≠ .haveIds := by
  have each : ∀ report id, (transferOne report id).Only
      fun request : SyncCall => request.2 ≠ .haveIds := by
    intro report id
    apply Program.Only.bind (Program.Only.ask (by simp))
    intro record
    apply Program.Only.bind (Program.Only.ask (by simp))
    intro wrote
    cases wrote <;> exact trivial
  have walk : ∀ old new, (isAncestor old new).Only
      fun request : SyncCall => request.2 ≠ .haveIds := by
    intro old new
    apply Program.Only.bind
    · apply only_explore
      intro seen node
      exact Program.Only.bind (Program.Only.ask (by simp)) fun _ => trivial
    · exact fun _ => trivial
  have carry : ∀ report ref, (syncRef report ref).Only
      fun request : SyncCall => request.2 ≠ .haveIds := by
    intro report ref
    apply Program.Only.bind (Program.Only.ask (by simp))
    intro target
    cases target with
    | none => exact Program.Only.bind (Program.Only.ask (by simp)) fun _ => trivial
    | some old =>
        simp only
        split
        case isTrue => exact trivial
        case isFalse =>
          apply (walk old ref.2).bind
          intro forward
          cases forward with
          | true => exact Program.Only.bind (Program.Only.ask (by simp)) fun _ => trivial
          | false => exact trivial
  apply (Program.Only.fold each _ _).bind
  intro report
  apply Program.Only.bind (Program.Only.ask (by simp))
  exact fun refs => Program.Only.fold carry refs report

/-! ## A sync -/

/-- Both peers of a sync behind the wire. -/
def networkPair (left right : Runtime) (ls : Lifestream) :
    World SyncCall SyncReply Error (Device × Device) :=
  between (networkTransport left (localTransport ls)) (networkTransport right (localTransport ls))

theorem between_source {σ τ : Type} {source : Transport σ} {destination : Transport τ}
    {call : TransportCall} {left later : σ} {right : τ} {reply : TransportReply call}
    (answered : source call left = .ok reply later) :
    between source destination (.source, call) (left, right) = .ok reply (later, right) := by
  simp only [between, answered]

theorem between_destination {σ τ : Type} {source : Transport σ} {destination : Transport τ}
    {call : TransportCall} {left : σ} {right later : τ} {reply : TransportReply call}
    (answered : destination call right = .ok reply later) :
    between source destination (.destination, call) (left, right) = .ok reply (left, later) := by
  simp only [between, answered]

def PairFits (ls : Lifestream) (made : SyncCall × Device × Device) : Prop :=
  match made.1.1 with
  | .source => Fits (localTransport ls) made.1.2 made.2.1
  | .destination => Fits (localTransport ls) made.1.2 made.2.2

instance (ls : Lifestream) : DecidablePred (PairFits ls)
  | ((.source, call), left, _) => inferInstanceAs (Decidable (Fits (localTransport ls) call left))
  | ((.destination, call), _, right) =>
      inferInstanceAs (Decidable (Fits (localTransport ls) call right))

/-- The calls a sync makes, each with the stores it found. -/
def syncCalls (ls : Lifestream) (source dest : Device) : List (SyncCall × Device × Device) :=
  (finalState (sync.run (recording (localPair ls)) ((source, dest), []))).2

theorem local_ids_nodup (ls : Lifestream) {device later : Device} {reply : List ObjectId}
    (listed : localTransport ls .haveIds device = .ok reply later) :
    reply = device.listIds ∧ later = device ∧ reply.Nodup := by
  cases listed
  exact ⟨rfl, rfl, device.objects.nodupKeys⟩

theorem local_refines (ls : Lifestream) (rt : Runtime) (call : TransportCall) (device : Device)
    (fits : Fits (localTransport ls) call device) :
    Refines call (networkTransport rt (localTransport ls) call device)
      (localTransport ls call device) := by
  apply network_refines rt (localTransport ls) call device fits
  intro reply later _ listed
  exact (local_ids_nodup ls listed).2.2

/-- But for the order of a set, the wire answers word for word. -/
theorem Refines.exact {σ : Type} {call : TransportCall}
    {got expected : EStateM.Result Error σ (TransportReply call)}
    (refines : Refines call got expected) (ordered : call ≠ .haveIds) :
    got = relabel netError expected := by
  cases expected with
  | error error later => exact refines
  | ok reply later =>
      obtain ⟨answer, rfl, same⟩ := refines
      have equal : answer = reply := by
        cases call with
        | haveIds => exact absurd rfl ordered
        | readRecord | writeRecord | refs | getRef | setRef | parents => exact same
      rw [equal]
      rfl

theorem pair_relabelled (left right : Runtime) (ls : Lifestream) (request : SyncCall)
    (devices : Device × Device) (ordered : request.2 ≠ .haveIds)
    (fits : PairFits ls (request, devices)) :
    networkPair left right ls request devices = relabel netError (localPair ls request devices) := by
  obtain ⟨side, call⟩ := request
  cases side with
  | source =>
      have same := (local_refines ls left call devices.1 fits).exact ordered
      simp only [networkPair, localPair, between, same]
      cases localTransport ls call devices.1 <;> rfl
  | destination =>
      have same := (local_refines ls right call devices.2 fits).exact ordered
      simp only [networkPair, localPair, between, same]
      cases localTransport ls call devices.2 <;> rfl

/-- A sync that lists both sides goes on from there. -/
theorem sync_run_listed {σ ε : Type} {world : World SyncCall SyncReply ε σ}
    {sources dests : List ObjectId} {state between after : σ}
    (source : world (.source, .haveIds) state = .ok sources between)
    (dest : world (.destination, .haveIds) between = .ok dests after) :
    sync.run world state = (syncFrom sources dests).run world after := by
  rw [sync_lists_first, askSource, ask_bind, run_call, source]
  simp only [askDestination, ask_bind, run_call, dest]

theorem sync_calls_listed (ls : Lifestream) (source dest : Device) :
    syncCalls ls source dest = (finalState ((syncFrom source.listIds dest.listIds).run
      (recording (localPair ls)) ((source, dest),
        [((.destination, .haveIds), (source, dest)), ((.source, .haveIds), (source, dest))]))).2 := by
  have listed : sync.run (recording (localPair ls)) ((source, dest), []) = _ :=
    sync_run_listed rfl rfl
  rw [syncCalls, listed]

theorem sync_stores_listed (ls : Lifestream) (source dest : Device) :
    syncStores ls (source, dest) =
      (syncFrom source.listIds dest.listIds).run (localPair ls) (source, dest) := by
  have first : localPair ls (.source, .haveIds) (source, dest) =
      .ok source.listIds (source, dest) := rfl
  have second : localPair ls (.destination, .haveIds) (source, dest) =
      .ok dest.listIds (source, dest) := rfl
  exact sync_run_listed first second

theorem network_lists (rt : Runtime) (ls : Lifestream) (device : Device)
    (fits : Fits (localTransport ls) .haveIds device) :
    ∃ ids, networkTransport rt (localTransport ls) .haveIds device = .ok ids device ∧
      ids.Perm device.listIds :=
  local_refines ls rt .haveIds device fits

theorem listing_calls (ls : Lifestream) (source dest : Device) :
    [((Side.destination, TransportCall.haveIds), (source, dest)),
      ((Side.source, TransportCall.haveIds), (source, dest))] ⊆ syncCalls ls source dest := by
  have made := recording_keeps (localPair ls) (syncFrom source.listIds dest.listIds) (source, dest)
    [((.destination, .haveIds), (source, dest)), ((.source, .haveIds), (source, dest))]
  rw [← sync_calls_listed] at made
  exact made

/-- In whatever order the two sides are listed, the rest is the same program. -/
theorem sync_listed_alike {σ ε : Type} {world : World SyncCall SyncReply ε σ} {state : σ}
    {sources sources' dests dests' : List ObjectId}
    (source : world (.source, .haveIds) state = .ok sources state)
    (dest : world (.destination, .haveIds) state = .ok dests state)
    (sourceSame : sources.Perm sources') (destSame : dests.Perm dests') :
    sync.run world state = (syncFrom sources' dests').run world state := by
  have listed := sync_run_listed source dest
  have same : syncFrom sources dests = syncFrom sources' dests' :=
    sync_from_perm sourceSame destSame
  exact same ▸ listed

/-- From the listings on the two worlds answer alike. -/
theorem network_sync_from (left right : Runtime) (ls : Lifestream) (source dest : Device)
    (fits : ∀ made ∈ syncCalls ls source dest, PairFits ls made) :
    (syncFrom source.listIds dest.listIds).run (networkPair left right ls) (source, dest) =
      relabel netError ((syncFrom source.listIds dest.listIds).run (localPair ls) (source, dest)) := by
  apply run_relabelled (localPair ls) (networkPair left right ls) netError
    (fun request => request.2 ≠ .haveIds) (PairFits ls)
  case agrees =>
    intro request state ordered within
    exact pair_relabelled left right ls request state ordered within
  case only => exact sync_from_only source.listIds dest.listIds
  case calls =>
    exact [((.destination, .haveIds), (source, dest)), ((.source, .haveIds), (source, dest))]
  case all =>
    rw [← sync_calls_listed]
    exact fits

theorem network_sync (left right : Runtime) (ls : Lifestream) (source dest : Device)
    (fits : ∀ made ∈ syncCalls ls source dest, PairFits ls made) :
    sync.run (networkPair left right ls) (source, dest) =
      relabel netError (syncStores ls (source, dest)) := by
  have made := listing_calls ls source dest
  have sourceFits : Fits (localTransport ls) .haveIds source :=
    fits _ (made (List.mem_cons_of_mem _ List.mem_cons_self))
  have destFits : Fits (localTransport ls) .haveIds dest := fits _ (made List.mem_cons_self)
  obtain ⟨sources, there, sourceSame⟩ := network_lists left ls source sourceFits
  obtain ⟨dests, here, destSame⟩ := network_lists right ls dest destFits
  have run : sync.run (networkPair left right ls) (source, dest) = _ :=
    sync_listed_alike (between_source there) (between_destination here) sourceSame destSame
  rw [run, sync_stores_listed]
  exact network_sync_from left right ls source dest fits

/-- Within the lengths of a frame, every call over the wire refines the call on
the store behind it, and so does a whole sync over two wires. -/
theorem network_refines_local (left right : Runtime) (ls : Lifestream) :
    (∀ call device, Fits (localTransport ls) call device →
      Refines call (networkTransport left (localTransport ls) call device)
        (localTransport ls call device)) ∧
    ∀ source dest, (∀ made ∈ syncCalls ls source dest, PairFits ls made) →
      sync.run (networkPair left right ls) (source, dest) =
        relabel netError (syncStores ls (source, dest)) :=
  ⟨local_refines ls left, network_sync left right ls⟩

theorem network_refines_local_at_commit :
    Refines .haveIds
        (networkTransport sampleRuntime (localTransport sampleStore) .haveIds
          (Device.committed ["one"]))
        (localTransport sampleStore .haveIds (Device.committed ["one"])) ∧
      sync.run (networkPair sampleRuntime sampleRuntime sampleStore)
          (Device.committed ["one"], Device.fresh) =
        relabel netError (syncStores sampleStore (Device.committed ["one"], Device.fresh)) :=
  ⟨(network_refines_local sampleRuntime sampleRuntime sampleStore).1 .haveIds
      (Device.committed ["one"]) (by decide +kernel),
    (network_refines_local sampleRuntime sampleRuntime sampleStore).2 (Device.committed ["one"])
      Device.fresh (by decide +kernel)⟩

end HorizonOs.Constellation
