import HorizonOs.Constellation.Convergence
import HorizonOs.Weave.Sharing

/-!
# Syncing the audit log

The audit log is a chain of trees behind the ref `weave-audit`. A sync moves a
ref that both stores have only where the ancestry walk finds the one target
behind the other, and that walk follows the parents of generations, of which a
tree has none.
-/

namespace HorizonOs.Constellation

open HorizonOs.Lib.ByteCodec HorizonOs.Lib.Runs HorizonOs.Lib.Programs HorizonOs.Lib.Search
open HorizonOs.Lifestream HorizonOs.Weave

set_option autoImplicit false

/-! ## What brokers leave at the ref -/

/-- The ref names what it named before, or a tree that the store holds. -/
def TreeHead (ls : Lifestream) (before after : Device) : Prop :=
  ∀ id, after.getRef auditRef = .ok (some id) →
    before.getRef auditRef = .ok (some id) ∨ ∃ entries, Holds ls after (.tree entries) id

theorem TreeHead.same {ls : Lifestream} {before after : Device}
    (same : after.getRef auditRef = before.getRef auditRef) : TreeHead ls before after := by
  intro id found
  rw [same] at found
  exact .inl found

theorem TreeHead.trans {ls : Lifestream} {first second third : Device}
    (near : TreeHead ls first second) (far : TreeHead ls second third)
    (grows : Grows ls.store second third) : TreeHead ls first third := by
  intro id found
  rcases far id found with there | held
  · rcases near id there with origin | ⟨entries, held⟩
    · exact .inl origin
    · exact .inr ⟨entries, held.grow grows.toKeeps⟩
  · exact .inr held

/-- A log write puts the tree of its entry before it moves the ref there. -/
theorem log_head (timeUnix : UInt64) (event : Weave.Event) (session : Weave.Session) :
    TreeHead session.broker.ls session.device
      (finalState (log timeUnix event session)).device := by
  set ls := session.broker.ls with lsDef
  have advances := advances_append ls session.broker.head session.broker.seq timeUnix event
    session.device
  cases appended : append ls session.broker.head session.broker.seq timeUnix event
      session.device with
  | error error device =>
      rw [appended, final_state_error] at advances
      simp only [log, ← lsDef, appended]
      apply TreeHead.same
      exact get_ref_congr (by rw [final_state_error, advances.refs]) advances.unreadableRef
  | ok id middle =>
      rw [appended, final_state_ok] at advances
      obtain ⟨payloadId, held⟩ : ∃ payloadId,
          Holds ls middle (.tree (entryChildren payloadId session.broker.head)) id := by
        simp only [append, bind_apply] at appended
        split at appended
        case h_2 => contradiction
        case h_1 payloadId between wrote =>
          exact ⟨payloadId, put_holds ls _ (children_fit payloadId _) between middle id appended⟩
      have moved : (finalState (log timeUnix event session)).device =
          finalState (setRef auditRef id middle) := by
        simp only [log, ← lsDef, appended]
        cases setRef auditRef id middle <;> rfl
      rw [moved]
      intro target found
      rcases set_ref_targets ls.store auditRef id middle auditRef target found with
        there | ⟨_, rfl⟩
      · rw [get_ref_congr (by rw [advances.refs]) advances.unreadableRef] at there
        exact .inl there
      · exact .inr ⟨_, held.grow (set_ref_keeps ls.store auditRef target middle).1.toKeeps⟩

theorem perform_head (session : Weave.Session) (draw : Draw) (call : Call) :
    TreeHead session.broker.ls session.device
      (finalState (perform draw call session)).device := by
  cases logs : eventOf session.broker draw call with
  | some event =>
      have written := log_head draw.logNow event
        (session.withGrants (prepare session.broker draw call))
      have same : (finalState (perform draw call session)).device =
          (finalState (log draw.logNow event
            (session.withGrants (prepare session.broker draw call)))).device := by
        rw [perform_of_event session draw call event logs]
        cases log draw.logNow event (session.withGrants (prepare session.broker draw call)) with
        | error error after => rfl
        | ok _ after =>
            simp only
            cases verdict session.broker draw call <;> rfl
      rw [same]
      exact written
  | none =>
      cases rereads : call.isReload with
      | true =>
          cases call with
          | reload =>
              rcases reload_outcome session draw with ⟨error, left⟩ | ⟨broker, changed, _, _, left⟩
              · rw [left]
                exact TreeHead.same rfl
              · rw [left]
                exact TreeHead.same rfl
          | _ => contradiction
      | false =>
          obtain ⟨grants, left, _⟩ := perform_silent session draw call logs rereads
          rw [left]
          exact TreeHead.same rfl

theorem world_step_head (ls : Lifestream) (world : Weave.World) (store : world.OneStore ls)
    (move : Weave.Move) : TreeHead ls world.device (worldStep ls world move).device := by
  cases move with
  | openBroker policy =>
      simp only [worldStep]
      cases openBroker ls policy world.device <;> exact TreeHead.same rfl
  | call index draw call =>
      cases found : world.brokers[index]? with
      | none =>
          simp only [worldStep, found]
          exact TreeHead.same rfl
      | some broker =>
          have moved := perform_head (world.session broker) draw call
          simp only [worldStep, found, Weave.World.after]
          rw [← store broker (List.mem_of_getElem? found)]
          exact moved

/-- However brokers have worked on a store, its log starts where it did or at a tree. -/
theorem brokers_head (ls : Lifestream) (world : Weave.World) (store : world.OneStore ls)
    (moves : List Weave.Move) :
    Grows ls.store world.device (run (worldStep ls) world moves).device ∧
      TreeHead ls world.device (run (worldStep ls) world moves).device := by
  have kept := run_invariant (worldStep ls) (fun later => later.OneStore ls ∧
    Grows ls.store world.device later.device ∧ TreeHead ls world.device later.device)
  have whole := kept ?step world moves ⟨store, Grows.refl _ _, TreeHead.same rfl⟩
  · exact whole.2
  case step =>
    rintro later move ⟨one, grows, head⟩
    have next := world_step_grows ls later one move
    exact ⟨one_store_step ls later move one, grows.trans next,
      head.trans (world_step_head ls later one move) next⟩

/-! ## What a store that has more reads -/

/-- Whatever the one store reads the other reads as well. -/
structure ReadsMore (ls : Lifestream) (less more : Device) : Prop where
  objects : ∀ id object, ls.get less id = .ok object → ls.get more id = .ok object
  keys : less.objects.keys.length ≤ more.objects.keys.length

section ReadsMore

variable {ls : Lifestream} {less more : Device}

theorem ReadsMore.chunks (reads : ReadsMore ls less more) (ids : List ObjectId) (data : Bytes)
    (read : ls.readChunks less ids = .ok data) : ls.readChunks more ids = .ok data := by
  induction ids generalizing data with
  | nil => exact read
  | cons id rest ih =>
      obtain ⟨object, got, tail⟩ := of_bind_ok read
      apply bind_ok (reads.objects id object got)
      cases object with
      | chunk piece =>
          obtain ⟨others, below, joined⟩ := of_bind_ok tail
          exact bind_ok (ih others below) joined
      | _ => cases tail

theorem ReadsMore.bytes (reads : ReadsMore ls less more) (id : ObjectId) (data : Bytes)
    (read : ls.readBytes less id = .ok data) : ls.readBytes more id = .ok data := by
  obtain ⟨object, got, rest⟩ := of_bind_ok read
  apply bind_ok (reads.objects id object got)
  cases object with
  | file chunks => exact reads.chunks chunks data rest
  | _ => cases rest

theorem ReadsMore.entry (reads : ReadsMore ls less more) (id : ObjectId)
    (entry : AuditEntry × Option ObjectId) (read : Weave.readEntry ls less id = .ok entry) :
    Weave.readEntry ls more id = .ok entry := by
  obtain ⟨object, got, rest⟩ := of_bind_ok read
  apply bind_ok (from_lifestream_ok (reads.objects id object (of_from_lifestream got)))
  cases object with
  | tree entries =>
      simp only at rest ⊢
      cases child : childNamed childPayload entries with
      | none =>
          rw [child] at rest
          cases rest
      | some payloadId =>
          rw [child] at rest
          obtain ⟨data, payload, decoded⟩ := of_bind_ok rest
          have same := reads.bytes payloadId data (of_from_lifestream payload)
          exact bind_ok (from_lifestream_ok same) decoded
  | _ => cases rest

theorem ReadsMore.walk (reads : ReadsMore ls less more) (fuel longer : Nat)
    (enough : fuel ≤ longer) (id : ObjectId) (entries : List AuditEntry)
    (read : walkChain ls less fuel id = .ok entries) :
    walkChain ls more longer id = .ok entries := by
  induction fuel generalizing longer id entries with
  | zero => cases read
  | succ fuel ih =>
      obtain ⟨longer, rfl⟩ := Nat.exists_eq_add_one_of_ne_zero (show longer ≠ 0 by omega)
      obtain ⟨⟨entry, prev⟩, top, rest⟩ := of_bind_ok read
      apply bind_ok (reads.entry id _ top)
      cases prev with
      | none => exact rest
      | some before =>
          obtain ⟨older, below, joined⟩ := of_bind_ok rest
          exact bind_ok (ih longer (by omega) before older below) joined

theorem ReadsMore.chain (reads : ReadsMore ls less more) (head : Option ObjectId)
    (entries : List AuditEntry) (read : chainFrom ls less head = .ok entries) :
    chainFrom ls more head = .ok entries := by
  cases head with
  | none => exact read
  | some id =>
      obtain ⟨out, walked, rest⟩ := of_bind_ok read
      have enough : less.objects.keys.length + 1 ≤ more.objects.keys.length + 1 :=
        Nat.succ_le_succ reads.keys
      exact bind_ok (reads.walk _ _ enough id out walked) rest

/-- A broker that opens on the one opens on the other and has the same table. -/
theorem ReadsMore.broker (reads : ReadsMore ls less more)
    (pointed : more.getRef auditRef = less.getRef auditRef) (policy : Policy) (broker : Broker)
    (opened : openBroker ls policy less = .ok broker) :
    openBroker ls policy more = .ok broker := by
  obtain ⟨head, found, rest⟩ := of_bind_ok opened
  obtain ⟨table, replayed, ended⟩ := of_bind_ok rest
  obtain ⟨entries, chain, counted⟩ := of_bind_ok replayed
  have same : fromLifestream (more.getRef auditRef) = .ok head := by
    rw [pointed]
    exact found
  exact bind_ok same (bind_ok (bind_ok (reads.chain head entries chain) counted) ended)

end ReadsMore

/-- After a sync the destination reads whatever its source reads. -/
theorem Synced.reads_more {ls : Lifestream} {source dest after : Device} {report : SyncReport}
    (synced : Synced ls source dest report after) (alike : Alike ls source dest)
    (legible : Legible ls dest) : ReadsMore ls source after := by
  obtain ⟨start, refs, carried, whole, _, moved⟩ := synced
  constructor
  · intro id object got
    obtain ⟨there, _⟩ := get_ok ls source id object got
    have readable : after.unreadable id = none := by
      rw [moved.only.unreadable, carried.advances.unreadable]
      exact legible.readable id
    apply get_of_contents ls after id object _ readable
    have same : ls.contents after id = ls.contents start id :=
      contents_congr ls (by rw [moved.only.objects])
    rw [same]
    rcases carried.contents_of_source whole alike there with held | ⟨present, blank⟩
    · exact held
    · obtain ⟨other, opens⟩ := legible.objects id present
      rw [opens] at blank
      cases blank
  · apply List.Subperm.length_le
    apply List.subperm_of_subset source.objects.nodupKeys
    intro id member
    rw [moved.only.objects]
    exact (listed_iff start id).mpr (whole id ((listed_iff source id).mp member))

/-! ## The sync -/

/-- The log has arrived: its head is the source's, and whoever opens a broker on
the destination gets the table that the source has. -/
def LogArrived (ls : Lifestream) (source dest : Device) : Prop :=
  dest.getRef auditRef = source.getRef auditRef ∧
    ∀ policy broker, openBroker ls policy source = .ok broker →
      openBroker ls policy dest = .ok broker

/-- A ref at a tree is nobody's descendant. -/
theorem tree_descends {ls : Lifestream} {device : Device} {id old : ObjectId}
    {entries : List TreeEntry} (held : ls.contents device id = some (.tree entries))
    (path : Ancestor ls device old id) : old = id := by
  have alone : ∀ node, node = id → ∀ next ∈ ls.parentsOf device node, next = id := by
    rintro node rfl next member
    rw [parentsOf, held] at member
    cases member
  exact path.carries alone rfl

/-- A sync after any work of brokers on the source brings their log over exactly
if there was no log yet or none of them has moved its head. -/
theorem audit_log_syncs_iff (ls : Lifestream) (world : Weave.World) (moves : List Weave.Move)
    (dest : Device) (report : SyncReport) (later : Device × Device) (store : world.OneStore ls)
    (sound : Sound ls.store world.device)
    (free : CollisionFree ls.store (run (worldStep ls) world moves).device)
    (equal : dest.getRef auditRef = world.device.getRef auditRef)
    (alike : Alike ls (run (worldStep ls) world moves).device dest) (legible : Legible ls dest)
    (ran : syncStores ls ((run (worldStep ls) world moves).device, dest) = .ok report later) :
    LogArrived ls (run (worldStep ls) world moves).device later.2 ↔
      dest.getRef auditRef = .ok none ∨
        (run (worldStep ls) world moves).device.getRef auditRef =
          world.device.getRef auditRef := by
  obtain ⟨grows, head⟩ := brokers_head ls world store moves
  set source := (run (worldStep ls) world moves).device with sourceDef
  obtain ⟨_, synced⟩ := synced_of_ok ran
  have more := synced.reads_more alike legible
  have arrives : later.2.getRef auditRef = source.getRef auditRef →
      LogArrived ls source later.2 :=
    fun same => ⟨same, more.broker same⟩
  obtain ⟨start, refs, carried, whole, read, moved⟩ := synced
  have named := read_refs_mem source refs read
  have before := carried.get_ref auditRef
  obtain ⟨target, found⟩ := read_refs_total source refs read auditRef
  have readable : ∀ name, start.unreadableRef name = none := by
    intro name
    rw [carried.advances.unreadableRef]
    exact legible.readableRef name
  cases target with
  | none =>
      -- the source has no log to carry over
      have unnamed : auditRef ∉ refs.map Prod.fst := by
        intro member
        obtain ⟨⟨name, id⟩, inside, rfl⟩ := List.mem_map.mp member
        have other := (named _ id).mp inside
        rw [found] at other
        cases other
      have left : later.2.getRef auditRef = dest.getRef auditRef := by
        rw [moved.only.get_ref (moved.others auditRef unnamed), before]
      constructor
      · intro arrived
        left
        rw [← left, arrived.1, found]
      · rintro (none | same)
        · exact arrives (by rw [left, none, found])
        · exact arrives (by rw [left, equal, same])
  | some id =>
      have member := (named auditRef id).mpr found
      obtain ⟨fate, meets⟩ := moved.met auditRef id member
      have ends := moved.get_ref readable member meets
      cases fate with
      | set =>
          have none : start.getRef auditRef = .ok none := meets
          rw [before] at none
          exact ⟨fun _ => .inl none, fun _ => arrives (by rw [ends, found]; rfl)⟩
      | same =>
          have there : start.getRef auditRef = .ok (some id) := meets
          have same : source.getRef auditRef = world.device.getRef auditRef := by
            rw [found, ← equal, ← before, there]
          refine ⟨fun _ => .inr same, fun _ => arrives ?_⟩
          rw [ends, found]
          exact there
      | advanced =>
          -- the walk cannot have come from the new head, a tree, to another id
          obtain ⟨old, there, differs, path⟩ := meets
          rcases head id found with origin | ⟨entries, held⟩
          · rw [← equal, ← before, there] at origin
            cases origin
            exact absurd rfl differs
          · have opens := contents_of_holds (grows.sound sound) free held
            rcases carried.contents_of_source whole alike opens with carriedTree | ⟨present, blank⟩
            · exact absurd (tree_descends carriedTree path) differs
            · obtain ⟨object, opens'⟩ := legible.objects id present
              rw [opens'] at blank
              cases blank
      | conflicted =>
          obtain ⟨old, there, differs, _⟩ := meets
          have stays : later.2.getRef auditRef = .ok (some old) := by
            rw [ends]
            exact there
          rw [before] at there
          constructor
          · intro arrived
            have same := arrived.1
            rw [stays, found] at same
            cases same
            exact absurd rfl differs
          · rintro (none | same)
            · rw [there] at none
              cases none
            · rw [← equal, there, found] at same
              cases same
              exact absurd rfl differs

/-! ## Two runs -/

theorem fresh_legible (ls : Lifestream) : Legible ls Device.fresh where
  readable _ := rfl
  readableRef _ := rfl
  objects id present := by
    simp [Device.has, Device.fresh, Device.empty] at present

/-- A broker opens on a store without a log and grants `/data`. -/
def grantMoves : List Weave.Move :=
  [.openBroker .denyAll,
    .call 0 (sampleDraw 10 1) (.grant "app" (samplePath "/data") Rights.READ Limits.none)]

def granted : Weave.World := run (worldStep sampleStore) (.start Device.fresh []) grantMoves

/-- The first log of an identity reaches a store that has none. -/
theorem first_log_syncs : ∃ report later,
    syncStores sampleStore (granted.device, Device.fresh) = .ok report later ∧
      LogArrived sampleStore granted.device later.2 := by
  have facts : isOk (syncStores sampleStore (granted.device, Device.fresh)) = true ∧
      CollisionFree sampleStore.store granted.device := by
    decide +kernel
  obtain ⟨report, later, ran⟩ := of_is_ok (syncStores sampleStore
    (granted.device, Device.fresh)) facts.1
  refine ⟨report, later, ran, ?_⟩
  have store : (Weave.World.start Device.fresh []).OneStore sampleStore := by
    intro broker member
    cases member
  have alike : Alike sampleStore granted.device Device.fresh := by
    apply alike_of_shared
    intro id listed
    cases listed
  apply (audit_log_syncs_iff sampleStore (.start Device.fresh []) grantMoves Device.fresh report
    later store (fresh_sound sampleStore.store) facts.2 rfl alike (fresh_legible sampleStore)
    ran).mpr
  exact .inl rfl

/-- The second store, once it has the log of the first. -/
def peer : Device := (finalState (syncStores sampleStore (granted.device, Device.fresh))).2

/-- The grant is revoked on the first store. -/
def revoked : Weave.World :=
  run (worldStep sampleStore) granted [.call 0 (sampleDraw 12 2) (.revoke (sampleId 1))]

/-- A sync that leaves the second store's log, and the grant in it, as they were. -/
def missed (report : SyncReport) (later : Device × Device) : Bool :=
  decide (later.2.getRef auditRef ≠ revoked.device.getRef auditRef) &&
    decide (report.refsConflicted = [auditRef]) &&
      (openBroker sampleStore .denyAll later.2).toOption.any fun broker =>
        !broker.grants.revokes (sampleId 1)

/-- The revocation does not reach the peer: the sync transfers its entry and then
takes the log for a diverged history, and the grant lives on. -/
theorem revocation_stays_behind : ∃ report later broker,
    (ClosureComplete sampleStore granted.device ∧ ClosureComplete sampleStore peer) ∧
      peer.getRef auditRef = granted.device.getRef auditRef ∧ sampleId 1 ∈ revoked.revoked ∧
      syncStores sampleStore (revoked.device, peer) = .ok report later ∧
      ¬LogArrived sampleStore revoked.device later.2 ∧ report.refsConflicted = [auditRef] ∧
      openBroker sampleStore .denyAll later.2 = .ok broker ∧
      broker.grants.revokes (sampleId 1) = false := by
  have facts : LinksClosed sampleStore granted.device ∧ LinksClosed sampleStore peer ∧
      peer.getRef auditRef = granted.device.getRef auditRef ∧ sampleId 1 ∈ revoked.revoked ∧
      okWith missed (syncStores sampleStore (revoked.device, peer)) = true := by
    decide +kernel
  obtain ⟨here, there, equal, answered, outcome⟩ := facts
  obtain ⟨report, later, ran, outcome⟩ := of_ok_with missed _ outcome
  simp only [missed, Bool.and_eq_true, decide_eq_true_iff] at outcome
  obtain ⟨⟨apart, conflicted⟩, opened⟩ := outcome
  obtain ⟨broker, found, alive⟩ := (Option.any_eq_true ..).mp opened
  refine ⟨report, later, broker, ⟨here.complete, there.complete⟩, equal, answered, ran, ?_,
    conflicted, of_to_option found, ?_⟩
  · exact fun arrived => apart arrived.1
  · simpa using alive

end HorizonOs.Constellation
