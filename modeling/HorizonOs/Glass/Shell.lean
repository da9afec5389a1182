import HorizonOs.Aura.Approval
import HorizonOs.Glass.Activity
import HorizonOs.Glass.Timeline

/-!
# The live shell

The shell opens a store, chooses its window then and there, and keeps it. It summarizes the broker
anew when it changed something itself, and when a poll finds that the log changed; whatever that
log holds from after the opening lies behind the window.
-/

namespace HorizonOs.Glass

open HorizonOs.Aura (Catalog Executor Plan approveAndExecute)
open HorizonOs.Lib.Runs
open HorizonOs.Lifestream (Device sampleStore)
open HorizonOs.Weave

set_option autoImplicit false

/-! ## Windows -/

def DAY_SECS : UInt64 := 24 * 60 * 60

/-- `saturating_mul`. -/
def saturatingMul (a b : UInt64) : UInt64 :=
  if a.toNat * b.toNat < 2 ^ 64 then a * b else UInt64.ofNat (2 ^ 64 - 1)

def Window.ending (now span : UInt64) : Window where
  startUnix := if span ≤ now then now - span else 0
  endUnix := now

def Window.days (now days : UInt64) : Window := .ending now (saturatingMul days DAY_SECS)

theorem ending_start (now span : UInt64) :
    (Window.ending now span).startUnix.toNat = now.toNat - span.toNat := by
  rw [Window.ending]
  dsimp only
  split_ifs with fits
  · exact UInt64.toNat_sub_of_le _ _ fits
  · have least : now.toNat < span.toNat := by
      rw [← UInt64.lt_iff_toNat_lt]
      exact UInt64.not_le.mp fits
    rw [Nat.sub_eq_zero_of_le (Nat.le_of_lt least)]
    rfl

/-- What is no later than an earlier end and not before the later window is in the earlier one. -/
theorem earlier_contains {opened now span t : UInt64} (later : opened ≤ now)
    (recent : (Window.ending now span).startUnix ≤ t) (early : t ≤ opened) :
    (Window.ending opened span).contains t = true := by
  rw [contains_iff, ending_start]
  rw [UInt64.le_iff_toNat_le] at later early
  rw [UInt64.le_iff_toNat_le, ending_start] at recent
  exact ⟨by omega, early⟩

/-! ## The shell -/

def DEFAULT_BUCKETS : Nat := 7

/-- Milliseconds. -/
def SHELL_POLL : Nat := 500

structure Shell where
  broker : Broker
  window : Window
  model : Model
  /-- The monotonic clock at the last poll, in milliseconds. -/
  lastPoll : Nat

/-- The shell and the store, which other processes write too. -/
structure Desktop where
  shell : Shell
  device : Device
  journal : List AuditEntry

def Desktop.session (desk : Desktop) : Session := ⟨desk.shell.broker, desk.device, desk.journal⟩

/-- The shell's broker, disk and journal after calls on them. -/
def Desktop.after (desk : Desktop) (session : Session) : Desktop where
  shell := { desk.shell with broker := session.broker }
  device := session.device
  journal := session.journal

/-- `Shell::open`; `listed` is the clock as the grants are listed. -/
def openShell (ls : HorizonOs.Lifestream) (policy : Policy) (device : Device)
    (now listed days : UInt64) (instant : Nat) : Except Weave.Error Shell := do
  let broker ← openBroker ls policy device
  let window := Window.days now days
  let model ← modelWithin broker device (broker.grantInfos listed) window DEFAULT_BUCKETS
  .ok { broker, window, model, lastPoll := instant }

/-- Summarize the broker into the cached model; where that fails the model stays. -/
def reloadModel (desk : Desktop) (now : UInt64) : Except Weave.Error Desktop := do
  let model ← modelWithin desk.shell.broker desk.device (desk.shell.broker.grantInfos now)
    desk.shell.window DEFAULT_BUCKETS
  .ok { desk with shell := { desk.shell with model } }

def Desktop.refreshed (desk : Desktop) (now : UInt64) : Desktop :=
  match reloadModel desk now with
  | .ok reloaded => reloaded
  | .error _ => desk

/-- The store poll of a tick, and whether the model changed. -/
def pollStore (desk : Desktop) (instant : Nat) (now : UInt64) : Bool × Desktop :=
  if instant - desk.shell.lastPoll < SHELL_POLL then (false, desk)
  else
    let polled := { desk with shell := { desk.shell with lastPoll := instant } }
    match polled.shell.broker.reload polled.device with
    | .ok (broker, changed) =>
        let reread := { polled with shell := { polled.shell with broker } }
        if changed then
          match reloadModel reread now with
          | .ok reloaded => (true, reloaded)
          | .error _ => (false, reread)
        else (false, reread)
    | .error _ => (false, polled)

/-! ### Runs -/

inductive ShellEvent where
  /-- Another process writes to the store. -/
  | outside (device : Device)
  /-- A click on the `sever` of a channel. -/
  | click (draw : Draw) (grant : GrantId) (now : UInt64)
  /-- A line that severs these channels. -/
  | sever (grants : List (Draw × GrantId)) (now : UInt64)
  /-- The confirmation of a plan. -/
  | confirm (plan : Plan) (catalog : Catalog) (draws : Nat → Draw) (files : List Aura.FileOp)
      (now : UInt64)
  | tick (instant : Nat) (now : UInt64)

def severAll (session : Session) (grants : List (Draw × GrantId)) : Session :=
  grants.foldl (fun session pair => finalState (revoke pair.1 pair.2 session)) session

def shellStep (desk : Desktop) : ShellEvent → Desktop
  | .outside device => { desk with device }
  | .click draw grant now =>
      match revoke draw grant desk.session with
      | .ok _ session => (desk.after session).refreshed now
      | .error _ session => desk.after session
  | .sever grants now => (desk.after (severAll desk.session grants)).refreshed now
  | .confirm plan catalog draws files now =>
      match approveAndExecute plan Limits.none
          (.withCatalog desk.session catalog draws 0 files) with
      | .ok _ aura => (desk.after aura.session).refreshed now
      | .error _ aura => desk.after aura.session
  | .tick instant now => (pollStore desk instant now).2

theorem refreshed_window (desk : Desktop) (now : UInt64) :
    (desk.refreshed now).shell.window = desk.shell.window := by
  rw [Desktop.refreshed]
  cases reloaded : reloadModel desk now with
  | error error => rfl
  | ok later =>
      obtain ⟨model, _, ended⟩ := of_bind_ok reloaded
      cases ended
      rfl

theorem poll_window (desk : Desktop) (instant : Nat) (now : UInt64) :
    (pollStore desk instant now).2.shell.window = desk.shell.window := by
  rw [pollStore]
  split
  · rfl
  · dsimp only
    split
    case h_1 broker changed _ =>
      split
      · split
        case h_1 later reloaded =>
          obtain ⟨model, _, ended⟩ := of_bind_ok reloaded
          cases ended
          rfl
        case h_2 => rfl
      · rfl
    case h_2 => rfl

/-- Nothing that happens to the shell moves its window. -/
theorem step_window (desk : Desktop) (event : ShellEvent) :
    (shellStep desk event).shell.window = desk.shell.window := by
  cases event with
  | outside device => rfl
  | click draw grant now =>
      rw [shellStep]
      split
      · exact refreshed_window _ now
      · rfl
  | sever grants now => exact refreshed_window _ now
  | confirm plan catalog draws files now =>
      rw [shellStep]
      split
      · exact refreshed_window _ now
      · rfl
  | tick instant now => exact poll_window desk instant now

/-- What a poll that changed the model has done. -/
theorem polled_reload {desk : Desktop} {instant : Nat} {now : UInt64}
    (polled : (pollStore desk instant now).1 = true) :
    desk.shell.broker.reload desk.device = .ok ((pollStore desk instant now).2.shell.broker, true) ∧
      (pollStore desk instant now).2.device = desk.device ∧
      modelWithin (pollStore desk instant now).2.shell.broker desk.device
        ((pollStore desk instant now).2.shell.broker.grantInfos now) desk.shell.window
        DEFAULT_BUCKETS = .ok (pollStore desk instant now).2.shell.model := by
  generalize after : pollStore desk instant now = outcome at polled ⊢
  rw [pollStore] at after
  split at after
  · cases after
    cases polled
  · dsimp only at after
    split at after
    case h_1 broker changed reread =>
      split at after
      case isTrue yes =>
        split at after
        case h_1 later reloaded =>
          obtain ⟨model, built, ended⟩ := of_bind_ok reloaded
          cases ended
          cases after
          rw [yes] at reread
          exact ⟨reread, rfl, built⟩
        case h_2 =>
          cases after
          cases polled
      case isFalse =>
        cases after
        cases polled
    case h_2 =>
      cases after
      cases polled

/-! ## What the shell shows -/

theorem granted_dated (entries : List AuditEntry) : ∀ id state,
    (tableOf entries).lookup id = some state →
      ∃ e ∈ entries, e.timeUnix = state.grant.grantedUnix := by
  induction entries using List.reverseRecOn with
  | nil =>
      intro id state found
      cases found
  | append_singleton entries last ih =>
      have stepped : tableOf (entries ++ [last]) = applyEntry (tableOf entries) last := by
        rw [tableOf, List.foldl_append]
        rfl
      have earlier : ∀ id state, (tableOf entries).lookup id = some state →
          ∃ e ∈ entries ++ [last], e.timeUnix = state.grant.grantedUnix := by
        intro id state found
        obtain ⟨e, among, time⟩ := ih id state found
        exact ⟨e, List.mem_append_left _ among, time⟩
      have adjusted : ∀ id state other (change : GrantState → GrantState),
          (∀ before, (change before).grant = before.grant) →
          ((tableOf entries).adjust other change).lookup id = some state →
          ∃ e ∈ entries ++ [last], e.timeUnix = state.grant.grantedUnix := by
        intro id state other change same found
        rw [lookup_adjust] at found
        split at found
        · obtain ⟨before, known, made⟩ := Option.map_eq_some_iff.mp found
          rw [← made, same]
          exact earlier other before known
        · exact earlier id state found
      intro id state found
      rw [stepped, applyEntry] at found
      cases event : last.event with
      | grant granted principal resource rights expiresUnix maxUses =>
          rw [event] at found
          dsimp only at found
          by_cases same : id = granted
          · rw [same, AList.lookup_insert] at found
            cases found
            exact ⟨last, List.mem_append_right _ (List.mem_singleton_self last), rfl⟩
          · rw [AList.lookup_insert_ne same] at found
            exact earlier id state found
      | use =>
          rw [event] at found
          exact adjusted id state _ GrantState.used (fun _ => rfl) found
      | deny =>
          rw [event] at found
          exact earlier id state found
      | revoke =>
          rw [event] at found
          exact adjusted id state _ GrantState.withRevoked (fun _ => rfl) found

theorem reload_table {broker later : Broker} {device : Device}
    (reloaded : broker.reload device = .ok (later, true)) :
    ∃ entries, later.audit device = .ok entries ∧ later.grants = tableOf entries := by
  obtain ⟨head, _, rest⟩ := of_bind_ok reloaded
  split at rest
  · cases rest
  · obtain ⟨table, replayed, ended⟩ := of_bind_ok rest
    obtain ⟨entries, read, made⟩ := of_bind_ok replayed
    cases ended
    cases made
    exact ⟨entries, read, rfl⟩

theorem kept_listed {entries : List AuditEntry} {grants : List GrantInfo} {window : Window}
    {buckets : Nat} {row : Row} (among : row ∈ (collect entries grants window buckets).rows)
    (kept : row.channel.isKept window = true) :
    (row.channel.principal, row.channel.sorted) ∈ (build entries grants window buckets).listed := by
  have listed := group_listed ((collect entries grants window buckets).kept window)
  apply listed.mem_iff.mpr
  refine List.mem_map.mpr ⟨row.channel.sorted, ?_, rfl⟩
  apply List.mem_map_of_mem
  exact List.mem_filter.mpr ⟨List.mem_map_of_mem among, kept⟩

theorem listed_nothing {entries : List AuditEntry} {grants : List GrantInfo} {window : Window}
    {buckets : Nat} (kept : (collect entries grants window buckets).kept window = []) :
    (build entries grants window buckets).listed = [] := by
  have listed := group_listed ((collect entries grants window buckets).kept window)
  rw [kept, List.map_nil] at listed
  change listedIn (group ((collect entries grants window buckets).kept window)) = []
  rw [kept]
  exact listed.eq_nil

/-- The model shows the last days: a channel for every denial in them and for every revoked grant
that was active in them, and every entry of them is counted in the timeline. -/
structure UpToDate (entries : List AuditEntry) (grants : List GrantInfo) (recent : Window)
    (model : Model) : Prop where
  denied : ∀ e ∈ entries, recent.contains e.timeUnix = true →
    ∀ principal resource rights reason, e.event = .deny principal resource rights reason →
      ∃ shown ∈ model.listed, shown.2.Takes principal resource ∧
        shown.2.lastReason.isSome = true
  severed : ∀ (i : Nat) (g : GrantInfo), grants[i]? = some g → g.status = .revoked →
    (recent.contains g.grantedUnix = true ∨
      ∃ e ∈ entries, Touches grants i g e ∧ recent.contains e.timeUnix = true) →
    ∃ shown ∈ model.listed, shown.1 = g.principal ∧ shown.2.grant = some g.id ∧
      shown.2.status = .severed
  counted : ∀ ahead e behind, entries = ahead ++ e :: behind →
    recent.contains e.timeUnix = true →
      (build (ahead ++ [e]) grants model.window DEFAULT_BUCKETS).timeline ≠
        (build ahead grants model.window DEFAULT_BUCKETS).timeline

/-- An entry moves the timeline exactly when it is in the window. -/
theorem timeline_moves_iff (ahead : List AuditEntry) (grants : List GrantInfo) (window : Window)
    {buckets : Nat} (some_ : 0 < buckets) (e : AuditEntry) :
    (build (ahead ++ [e]) grants window buckets).timeline ≠
        (build ahead grants window buckets).timeline ↔ window.contains e.timeUnix = true := by
  have stepped : (build (ahead ++ [e]) grants window buckets).timeline =
      tally window buckets (build ahead grants window buckets).timeline e := by
    change (collect _ _ _ _).timeline = tally _ _ (collect _ _ _ _).timeline e
    rw [collect_timeline, collect_timeline, List.foldl_append]
    rfl
  rw [stepped]
  constructor
  · intro moved
    by_contra outside
    apply moved
    rw [tally, if_neg outside]
  · intro inside same
    obtain ⟨i, below, index⟩ : ∃ i < buckets, bucketIndex window buckets e.timeUnix = some i :=
      ⟨_, HorizonOs.Lib.Histogram.picked_lt some_, bucket_index_picked some_ inside⟩
    obtain ⟨slot, here⟩ : ∃ slot, (build ahead grants window buckets).timeline[i]? = some slot := by
      rw [timeline_eq, List.getElem?_map, List.getElem?_range below]
      exact ⟨_, rfl⟩
    have counts : countsIn window buckets i e = true := by
      rw [countsIn, inside, index]
      exact decide_eq_true rfl
    have raised := get_tally window buckets (build ahead grants window buckets).timeline e i
    rw [same, here, Option.map_some] at raised
    have counter := record_counter window buckets slot i e (EventKind.of e.event)
    rw [← Option.some.inj raised, if_pos ⟨counts, rfl⟩] at counter
    simp at counter

section Shows

variable {entries : List AuditEntry} {grants : List GrantInfo} {opened now span : UInt64}

/-- A row that has been active in the last days is kept, when nothing is later than the opening. -/
theorem active_kept (later : opened ≤ now)
    (early : ∀ t, DatedBy entries grants t → (Window.ending now span).startUnix ≤ t → t ≤ opened)
    {draft : Draft} (timed : draft.Timed (DatedBy entries grants)) {row : Row}
    (among : row ∈ draft.rows) {t : UInt64} (recent : (Window.ending now span).contains t = true)
    (active : row.channel.ActiveSince t) :
    row.channel.isKept (Window.ending opened span) = true := by
  obtain ⟨last, found, since⟩ := active
  have behind : (Window.ending now span).startUnix ≤ last := by
    rw [Window.contains, Bool.and_eq_true, decide_eq_true_eq] at recent
    exact UInt64.le_trans recent.1 since
  have inside := earlier_contains later behind (early last (timed row among last found) behind)
  rw [Channel.isKept, found, Option.any_some, inside, Bool.or_true]

theorem grant_standing {draft : Draft} (seeds : Seeds grants draft) {i : Nat} {g : GrantInfo}
    (found : grants[i]? = some g) {row : Row} (here : draft.rows[i]? = some row) :
    row.channel.standing = (seeded g).standing := by
  obtain ⟨added, _, standings⟩ := seeds.from_grants
  have inside := (List.getElem?_eq_some_iff.mp found).1
  have standing : draft.standings[i]? = some row.channel.standing := by
    rw [Draft.standings, List.getElem?_map, here]
    rfl
  rw [standings, List.getElem?_append_left (by rw [List.length_map]; exact inside),
    List.getElem?_map, found] at standing
  exact (Option.some.inj standing).symm

theorem up_to_date (later : opened ≤ now) (unique : (grants.map GrantInfo.id).Nodup)
    (early : ∀ t, DatedBy entries grants t → (Window.ending now span).startUnix ≤ t → t ≤ opened) :
    UpToDate entries grants (Window.ending now span)
      (build entries grants (Window.ending opened span) DEFAULT_BUCKETS) := by
  have aged := aged_run (Window.ending opened span) DEFAULT_BUCKETS unique entries
  refine ⟨?_, ?_, ?_⟩
  · intro e member recent principal resource rights reason event
    obtain ⟨row, among, takes, active, reasoned⟩ :=
      aged.denied e member principal resource rights reason event
    exact ⟨_, kept_listed among (active_kept later early aged.timed among recent active), takes,
      reasoned⟩
  · intro i g found revoked busy
    obtain ⟨row, here, made, touched⟩ := aged.granted i g found
    have among := List.mem_of_getElem? here
    have standing := grant_standing aged.seeds found here
    have status : row.channel.status = .severed := by
      have same : row.channel.status = ChannelStatus.from_status g.status :=
        congrArg Standing.status standing
      rw [same, revoked]
      rfl
    have kept : row.channel.isKept (Window.ending opened span) = true := by
      rcases busy with granted | ⟨e, member, touches, recent⟩
      · exact active_kept later early aged.timed among granted made
      · exact active_kept later early aged.timed among recent (touched e member touches)
    exact ⟨_, kept_listed among kept, congrArg Standing.principal standing,
      congrArg Standing.grant standing, status⟩
  · intro ahead e behind split recent
    rw [timeline_moves_iff _ _ _ (by decide)]
    have member : e ∈ entries := by
      rw [split]
      exact List.mem_append_right _ List.mem_cons_self
    have start : (Window.ending now span).startUnix ≤ e.timeUnix := by
      rw [Window.contains, Bool.and_eq_true, decide_eq_true_eq] at recent
      exact recent.1
    exact earlier_contains later start (early _ (.inr ⟨e, member, rfl⟩) start)

end Shows

/-- For every run of the shell, after a tick whose poll reloaded the log: the model shows the last
days when no entry that is not older than these is later than the opening, and only if none of
theirs is. -/
theorem reload_shows_the_last_days (ls : HorizonOs.Lifestream) (policy : Policy) (device : Device)
    (opened listed days : UInt64) (instant : Nat) (shell : Shell)
    (opens : openShell ls policy device opened listed days instant = .ok shell)
    (journal : List AuditEntry) (events : List ShellEvent) (desk : Desktop)
    (ran : desk = run shellStep ⟨shell, device, journal⟩ events) (polled : Nat) (now : UInt64)
    (later : opened ≤ now) (reloaded : (pollStore desk polled now).1 = true) :
    ∃ entries, (pollStore desk polled now).2.shell.broker.audit desk.device = .ok entries ∧
      ((∀ e ∈ entries, (Window.days now days).startUnix ≤ e.timeUnix → e.timeUnix ≤ opened) →
        UpToDate entries ((pollStore desk polled now).2.shell.broker.grantInfos now)
          (Window.days now days) (pollStore desk polled now).2.shell.model) ∧
      (UpToDate entries ((pollStore desk polled now).2.shell.broker.grantInfos now)
          (Window.days now days) (pollStore desk polled now).2.shell.model →
        ∀ e ∈ entries, (Window.days now days).contains e.timeUnix = true → e.timeUnix ≤ opened) := by
  have window : desk.shell.window = Window.days opened days := by
    rw [ran]
    apply run_invariant shellStep fun desk => desk.shell.window = Window.days opened days
    · intro desk event same
      exact (step_window desk event).trans same
    · obtain ⟨broker, _, rest⟩ := of_bind_ok opens
      obtain ⟨model, _, ended⟩ := of_bind_ok rest
      cases ended
      rfl
  obtain ⟨reread, _, built⟩ := polled_reload reloaded
  obtain ⟨entries, read, table⟩ := reload_table reread
  rw [modelWithin, read, window] at built
  have model := Except.ok.inj built
  rw [← model]
  have filed : Aura.Filed (pollStore desk polled now).2.shell.broker.grants := by
    rw [table]
    exact Aura.filed_table entries
  refine ⟨entries, read, fun early => ?_, fun shown e member recent => ?_⟩
  · apply up_to_date later (listed_once _ now filed _ (List.Perm.refl _))
    rintro t (⟨g, member, same⟩ | ⟨e, member, same⟩) recent
    · -- the table is replayed, so a grant is as old as its entry
      obtain ⟨⟨key, state⟩, entry, made⟩ := List.mem_map.mp (List.mem_mergeSort.mp member)
      have known := AList.mem_lookup_iff.mpr entry
      rw [table] at known
      obtain ⟨e, among, time⟩ := granted_dated entries key state known
      rw [← same, ← made] at recent ⊢
      rw [show (state.info now).grantedUnix = e.timeUnix from time.symm] at recent ⊢
      exact early e among recent
    · rw [← same] at recent ⊢
      exact early e member recent
  · obtain ⟨ahead, behind, split⟩ := List.append_of_mem member
    have moved := (timeline_moves_iff ahead _ _ (by decide) e).mp
      (shown.counted ahead e behind split recent)
    rw [Window.contains, Bool.and_eq_true, decide_eq_true_eq, decide_eq_true_eq] at moved
    exact moved.2

/-! ### A log that another process wrote before the shell opened, and after -/

/-- The store once a revoked grant has been exercised. -/
@[irreducible] def exercisedLife : Life := sampleLife (severedDeeds ++ [sampleExercise 1])

def freshShell (opened : UInt64) : Shell where
  broker := sampleBroker
  window := Window.days opened 7
  model := build [] (sampleBroker.grantInfos opened) (Window.days opened 7) DEFAULT_BUCKETS
  lastPoll := 0

/-- A shell on a fresh store, to which another process then writes. -/
def sampleDesk (opened : UInt64) : Desktop :=
  run shellStep ⟨freshShell opened, Device.fresh, []⟩ [.outside exercisedLife.device]

theorem sample_opens (opened : UInt64) :
    openShell sampleStore .denyAll Device.fresh opened opened 7 0 = .ok (freshShell opened) := rfl

theorem sample_desk (opened : UInt64) : (sampleDesk opened).shell.broker = sampleBroker ∧
    (sampleDesk opened).device = exercisedLife.device ∧
    (sampleDesk opened).shell.window = Window.days opened 7 := ⟨rfl, rfl, rfl⟩

theorem sample_audit {opened : UInt64} {broker : Broker}
    (reloaded : (sampleDesk opened).shell.broker.reload (sampleDesk opened).device =
      .ok (broker, true)) :
    broker.audit (sampleDesk opened).device = .ok exercisedLife.journal ∧
      broker.grantInfos 21 = [sampleInfo 1 10 .revoked] := by
  have read : (sampleBroker.reload exercisedLife.device).toOption.map (fun pair =>
      ((pair.1.audit exercisedLife.device).toOption,
        pair.1.grants.entries.map fun item => item.2.info 21)) =
      some (some exercisedLife.journal, [sampleInfo 1 10 .revoked]) := by
    decide +kernel
  rw [(sample_desk opened).1, (sample_desk opened).2.1] at reloaded
  rw [reloaded] at read
  obtain ⟨audited, infos⟩ := Prod.mk.inj (Option.some.inj read)
  constructor
  · rw [(sample_desk opened).2.1]
    exact of_to_option audited
  · rw [Broker.grantInfos]
    dsimp only at infos
    rw [infos, List.mergeSort_singleton]

theorem early_log_shown : ∃ entries,
    (pollStore (sampleDesk 20) 500 21).2.shell.broker.audit (sampleDesk 20).device = .ok entries ∧
      UpToDate entries ((pollStore (sampleDesk 20) 500 21).2.shell.broker.grantInfos 21)
        (Window.days 21 7) (pollStore (sampleDesk 20) 500 21).2.shell.model := by
  have reloaded : (pollStore (sampleDesk 20) 500 21).1 = true := by decide +kernel
  obtain ⟨entries, read, shown, _⟩ := reload_shows_the_last_days sampleStore .denyAll Device.fresh
    20 20 7 0 (freshShell 20) (sample_opens 20) [] [.outside exercisedLife.device] _ rfl 500 21
    (by decide) reloaded
  have known := (sample_audit (polled_reload reloaded).1).1
  have same : entries = exercisedLife.journal := Except.ok.inj (read.symm.trans known)
  refine ⟨entries, read, shown ?_⟩
  rw [same]
  decide +kernel

/-- The shell opens, and afterwards a revoked grant is exercised: the reloaded model has neither a
channel for the denial nor a count of it. -/
theorem late_denial_not_shown : (pollStore (sampleDesk 5) 500 21).1 = true ∧
    (pollStore (sampleDesk 5) 500 21).2.shell.broker.audit (sampleDesk 5).device =
      .ok exercisedLife.journal ∧
    (∃ e ∈ exercisedLife.journal, deniedPrincipal e.event = some "app" ∧
      (Window.days 21 7).contains e.timeUnix = true) ∧
    (pollStore (sampleDesk 5) 500 21).2.shell.model.listed = [] ∧
    ∀ slot ∈ (pollStore (sampleDesk 5) 500 21).2.shell.model.timeline, slot.denials = 0 := by
  have reloaded : (pollStore (sampleDesk 5) 500 21).1 = true := by decide +kernel
  obtain ⟨reread, _, built⟩ := polled_reload reloaded
  obtain ⟨audited, infos⟩ := sample_audit reread
  rw [modelWithin, audited, infos, (sample_desk 5).2.2] at built
  have model := Except.ok.inj built
  refine ⟨reloaded, audited, by decide +kernel, ?_, ?_⟩
  · rw [← model]
    have kept : (collect exercisedLife.journal [sampleInfo 1 10 .revoked] (Window.days 5 7)
        DEFAULT_BUCKETS).kept (Window.days 5 7) = [] := by
      decide +kernel
    exact listed_nothing kept
  · rw [← model]
    have zero : ∀ slot ∈ (collect exercisedLife.journal [sampleInfo 1 10 .revoked]
        (Window.days 5 7) DEFAULT_BUCKETS).timeline, slot.denials = 0 := by
      decide +kernel
    exact zero

end HorizonOs.Glass
