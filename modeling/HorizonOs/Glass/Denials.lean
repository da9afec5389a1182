import HorizonOs.Aura.Brokerage
import HorizonOs.Glass.Views
import HorizonOs.Weave.Lifetime

/-!
# Where Glass counts a denial

The entry of a denial names a principal and a resource and no grant. The fold counts it on the
first grant listed that is the principal's and covers the resource, whichever grant was exercised.
-/

namespace HorizonOs.Glass

open HorizonOs.Lib.Runs
open HorizonOs.Lifestream (Device sampleMaster sampleStore)
open HorizonOs.Weave

set_option autoImplicit false

/-! ## The row of a denial -/

/-- Whether a denial would be counted on this grant. -/
def claims (principal : PrincipalId) (resource : Resource) (g : GrantInfo) : Bool :=
  g.principal = principal && g.resource.covers resource

/-- The place among the grants of the one that an entry counts against. -/
def homeAmong (grants : List GrantInfo) (e : AuditEntry) : Option Nat :=
  match e.event with
  | .deny principal resource _ _ => grants.findIdx? (claims principal resource)
  | _ => none

/-- A draft of these grants: their rows come first, and denials open rows behind them. -/
structure Seeds (grants : List GrantInfo) (draft : Draft) : Prop where
  from_grants : FromGrants grants draft
  behind : ∀ pair ∈ draft.byDeny, grants.length ≤ pair.2

section Fold

variable {grants : List GrantInfo} {draft : Draft}

def Standing.folds (principal : PrincipalId) (resource : Resource) (standing : Standing) : Bool :=
  standing.grant.isSome && standing.principal = principal && standing.resource.covers resource

theorem denied_index (seeds : Seeds grants draft) (principal : PrincipalId) (resource : Resource) :
    draft.rows.findIdx? (Row.folds principal resource) =
      grants.findIdx? (claims principal resource) := by
  obtain ⟨added, refused, standings⟩ := seeds.from_grants
  have none_added : added.findIdx? (Standing.folds principal resource) = none := by
    rw [List.findIdx?_eq_none_iff]
    intro standing member
    rw [Standing.folds, (refused standing member).1]
    rfl
  calc
    draft.rows.findIdx? (Row.folds principal resource)
      = draft.standings.findIdx? (Standing.folds principal resource) := by
        rw [Draft.standings, List.findIdx?_map]
        rfl
    _ = (grants.map fun g => (seeded g).standing).findIdx? (Standing.folds principal resource) := by
        rw [standings, List.findIdx?_append, none_added, Option.map_none, Option.or_none]
    _ = grants.findIdx? (claims principal resource) := by
        rw [List.findIdx?_map]
        rfl

theorem length_rows (seeds : Seeds grants draft) : grants.length ≤ draft.rows.length := by
  obtain ⟨added, _, standings⟩ := seeds.from_grants
  have lengths := congrArg List.length standings
  rw [Draft.standings, List.length_map, List.length_append, List.length_map] at lengths
  omega

theorem Seeds.extends {after : Draft} (seeds : Seeds grants draft) (extends_ : Extends draft after)
    (behind : ∀ pair ∈ after.byDeny, grants.length ≤ pair.2) : Seeds grants after := by
  obtain ⟨added, refused, standings⟩ := seeds.from_grants
  obtain ⟨more, refused', grown⟩ := extends_
  refine ⟨⟨added ++ more, ?_, ?_⟩, behind⟩
  · intro standing member
    rcases List.mem_append.mp member with earlier | later
    · exact refused standing earlier
    · exact refused' standing later
  · rw [grown, standings, List.append_assoc]

/-- A denial that no grant claims is filed behind the grants. -/
theorem seeds_deny_channel (seeds : Seeds grants draft) (principal : PrincipalId)
    (resource : Resource) (rights : Rights) :
    grants.length ≤ (draft.denyChannel principal resource rights).1 ∧
      Seeds grants (draft.denyChannel principal resource rights).2 ∧
      ∀ j < grants.length, (draft.denyChannel principal resource rights).2.denials[j]? =
        draft.denials[j]? := by
  have rows := length_rows seeds
  simp only [Draft.denyChannel]
  split
  case h_1 k i found =>
    have standings : (draft.adjust i (Row.widen rights)).standings = draft.standings :=
      standings_adjust draft i _ fun _ => rfl
    refine ⟨seeds.behind (k, i) (List.mem_of_find?_eq_some found),
      seeds.extends (.of_same standings) seeds.behind, fun j _ => ?_⟩
    exact congrArg (·[j]?) (denials_adjust draft i (Row.widen rights) fun _ => rfl)
  case h_2 =>
    refine ⟨rows, seeds.extends ⟨[(refused principal resource rights).standing], ?_,
      List.map_append⟩ ?_, fun j inside => ?_⟩
    · intro standing member
      rw [List.mem_singleton.mp member]
      exact ⟨rfl, rfl⟩
    · intro pair member
      rcases List.mem_append.mp member with earlier | last
      · exact seeds.behind pair earlier
      · rw [List.mem_singleton.mp last]
        exact rows
    · rw [Draft.denials, List.map_append, List.getElem?_append_left]
      · rfl
      · rw [List.length_map]
        omega

/-- An entry raises the count of the grant it counts against, and of no other grant. -/
theorem seeds_step (seeds : Seeds grants draft) (window : Window) (buckets : Nat)
    (byGrant : List (GrantId × Nat)) (e : AuditEntry) :
    Seeds grants (draft.step window buckets byGrant e) ∧
      ∀ j < grants.length, (draft.step window buckets byGrant e).denials[j]? =
        draft.denials[j]?.map fun n => if homeAmong grants e = some j then n + 1 else n := by
  cases event : e.event with
  | deny principal resource rights reason =>
      have home : homeAmong grants e = grants.findIdx? (claims principal resource) := by
        rw [homeAmong, event]
      have dated : Seeds grants { draft with timeline := tally window buckets draft.timeline e } :=
        ⟨seeds.from_grants, seeds.behind⟩
      rw [Draft.step, Draft.record, event, home]
      dsimp only
      cases found : grants.findIdx? (claims principal resource) with
      | some i =>
          have row := denied_index dated principal resource
          rw [found] at row
          simp only [Draft.deniedRow, row]
          refine ⟨dated.extends (.of_same (standings_adjust _ i _ fun _ => rfl)) dated.behind, ?_⟩
          intro j _
          rw [denials_deny, List.getElem?_modify]
          simp only [Option.some_inj]
          rfl
      | none =>
          have row := denied_index dated principal resource
          rw [found] at row
          simp only [Draft.deniedRow, row]
          obtain ⟨outside, filed, kept⟩ := seeds_deny_channel dated principal resource rights
          refine ⟨filed.extends (.of_same (standings_adjust _ _ _ fun _ => rfl)) filed.behind, ?_⟩
          intro j inside
          have elsewhere : (Draft.denyChannel { draft with
              timeline := tally window buckets draft.timeline e } principal resource rights).1 ≠ j := by
            omega
          rw [denials_deny, List.getElem?_modify_ne _ _ elsewhere, kept j inside]
          exact (Option.map_id' (x := draft.denials[j]?)).symm
  | grant | use | revoke =>
      have home : homeAmong grants e = none := by rw [homeAmong, event]
      have other : deniedPrincipal e.event = none := by rw [event]; rfl
      obtain ⟨standings, denials, same⟩ := step_keeps window buckets byGrant draft e other
      refine ⟨seeds.extends (.of_same standings) (same ▸ seeds.behind), fun j _ => ?_⟩
      rw [denials, home]
      exact (Option.map_id' (x := draft.denials[j]?)).symm

theorem seeds_seed (grants : List GrantInfo) (window : Window) (buckets : Nat) :
    Seeds grants (seedDraft grants window buckets) := by
  refine ⟨⟨[], ?_, ?_⟩, ?_⟩
  · intro standing member
    cases member
  · rw [seed_standings, List.append_nil]
  · intro pair member
    cases member

theorem seeds_run (entries : List AuditEntry) (grants : List GrantInfo) (window : Window)
    (buckets : Nat) : Seeds grants (collect entries grants window buckets) := by
  induction entries using List.reverseRecOn with
  | nil => exact seeds_seed grants window buckets
  | append_singleton entries last ih =>
      rw [collect, List.foldl_append]
      exact (seeds_step ih window buckets (indexGrants grants) last).1

end Fold

/-! ## The channel of a grant -/

/-- The denials that the channel of a grant counts. -/
def Draft.denialsOf (draft : Draft) (id : GrantId) : Option UInt32 :=
  (draft.rows.find? fun row => row.channel.grant = some id).map fun row => row.channel.denials

section Channels

variable {grants : List GrantInfo} {draft : Draft}

theorem standing_at (seeds : Seeds grants draft) {i : Nat} {row : Row}
    (here : draft.rows[i]? = some row) (id : GrantId) (backed : row.channel.grant = some id) :
    ∃ g, grants[i]? = some g ∧ g.id = id := by
  obtain ⟨added, refused, standings⟩ := seeds.from_grants
  have standing : draft.standings[i]? = some row.channel.standing := by
    rw [Draft.standings, List.getElem?_map, here]
    rfl
  rw [standings, List.getElem?_append] at standing
  split at standing
  · rw [List.getElem?_map] at standing
    obtain ⟨g, found, same⟩ := Option.map_eq_some_iff.mp standing
    refine ⟨g, found, Option.some.inj ?_⟩
    exact (congrArg Standing.grant same).trans backed
  · have none_behind := (refused _ (List.mem_of_getElem? standing)).1
    cases none_behind.symm.trans backed

theorem grant_at (seeds : Seeds grants draft) {i : Nat} {g : GrantInfo} (found : grants[i]? = some g) :
    ∃ row, draft.rows[i]? = some row ∧ row.channel.grant = some g.id := by
  obtain ⟨added, _, standings⟩ := seeds.from_grants
  have inside := (List.getElem?_eq_some_iff.mp found).1
  have standing : draft.standings[i]? = some (seeded g).standing := by
    rw [standings, List.getElem?_append_left (by rw [List.length_map]; exact inside),
      List.getElem?_map, found]
    rfl
  rw [Draft.standings, List.getElem?_map] at standing
  obtain ⟨row, here, same⟩ := Option.map_eq_some_iff.mp standing
  exact ⟨row, here, congrArg Standing.grant same⟩

theorem row_of_grant (seeds : Seeds grants draft) (unique : (grants.map GrantInfo.id).Nodup)
    {i : Nat} {g : GrantInfo} (found : grants[i]? = some g) :
    draft.denialsOf g.id = draft.denials[i]? := by
  obtain ⟨row, here, backed⟩ := grant_at seeds found
  obtain ⟨inside, same⟩ := List.getElem?_eq_some_iff.mp here
  have first : draft.rows.find? (fun row => row.channel.grant = some g.id) = some row := by
    rw [List.find?_eq_some_iff_getElem]
    refine ⟨decide_eq_true backed, i, inside, same, fun j before => ?_⟩
    rw [Bool.not_eq_true', decide_eq_false_iff_not]
    intro other
    obtain ⟨g', found', ids⟩ := standing_at seeds (List.getElem?_eq_getElem _) g.id other
    have one : (grants.map GrantInfo.id)[j]? = (grants.map GrantInfo.id)[i]? := by
      rw [List.getElem?_map, List.getElem?_map, found, found', Option.map_some, Option.map_some, ids]
    have places := (List.getElem?_inj (by
      rw [List.length_map]
      exact (List.getElem?_eq_some_iff.mp found').1) unique).mp one
    omega
  rw [Draft.denialsOf, first, Draft.denials, List.getElem?_map, here]

theorem unlisted_counts_nothing (seeds : Seeds grants draft) {id : GrantId}
    (unlisted : id ∉ grants.map GrantInfo.id) : draft.denialsOf id = none := by
  have absent : draft.rows.find? (fun row => row.channel.grant = some id) = none := by
    rw [List.find?_eq_none]
    intro row member backed
    obtain ⟨i, here⟩ := List.mem_iff_getElem?.mp member
    obtain ⟨g, found, same⟩ := standing_at seeds here id (of_decide_eq_true backed)
    apply unlisted
    rw [← same]
    exact List.mem_map_of_mem (List.mem_of_getElem? found)
  rw [Draft.denialsOf, absent, Option.map_none]

end Channels

/-- The entry behind these raises the count of one grant's channel, and of no other's. -/
structure CountsOn (grants : List GrantInfo) (window : Window) (buckets : Nat)
    (ahead : List AuditEntry) (e : AuditEntry) (id : GrantId) : Prop where
  own : ∃ before, (collect ahead grants window buckets).denialsOf id = some before ∧
    (collect (ahead ++ [e]) grants window buckets).denialsOf id = some (before + 1)
  others : ∀ other, other ≠ id → (collect (ahead ++ [e]) grants window buckets).denialsOf other =
    (collect ahead grants window buckets).denialsOf other

/-- Of the grants listed, this one is the first that is the principal's and covers the resource. -/
def Foremost (grants : List GrantInfo) (id : GrantId) (principal : PrincipalId)
    (resource : Resource) : Prop :=
  ∃ before g behind, grants = before ++ g :: behind ∧ g.id = id ∧ g.principal = principal ∧
    g.resource.covers resource = true ∧
    ∀ other ∈ before, ¬(other.principal = principal ∧ other.resource.covers resource = true)

theorem claims_iff (principal : PrincipalId) (resource : Resource) (g : GrantInfo) :
    claims principal resource g = true ↔
      g.principal = principal ∧ g.resource.covers resource = true := by
  rw [claims, Bool.and_eq_true, decide_eq_true_iff]

theorem foremost_iff (grants : List GrantInfo) (id : GrantId) (principal : PrincipalId)
    (resource : Resource) : Foremost grants id principal resource ↔
      ∃ i g, grants.findIdx? (claims principal resource) = some i ∧ grants[i]? = some g ∧
        g.id = id := by
  constructor
  · rintro ⟨before, g, behind, listed, same, own, covers, first⟩
    refine ⟨before.length, g, ?_, ?_, same⟩
    · rw [List.findIdx?_eq_some_iff_getElem, listed]
      refine ⟨by simp, ?_, ?_⟩
      · rw [List.getElem_append_right (Nat.le_refl _)]
        simp only [Nat.sub_self, List.getElem_cons_zero]
        exact (claims_iff principal resource g).mpr ⟨own, covers⟩
      · intro j inside claimed
        rw [List.getElem_append_left inside] at claimed
        exact first _ (List.getElem_mem inside) ((claims_iff principal resource _).mp claimed)
    · rw [listed, List.getElem?_append_right (Nat.le_refl _), Nat.sub_self]
      rfl
  · rintro ⟨i, g, found, here, same⟩
    obtain ⟨inside, claimed, first⟩ := List.findIdx?_eq_some_iff_getElem.mp found
    obtain ⟨_, at_i⟩ := List.getElem?_eq_some_iff.mp here
    rw [at_i] at claimed
    obtain ⟨own, covers⟩ := (claims_iff principal resource g).mp claimed
    refine ⟨grants.take i, g, grants.drop (i + 1), ?_, same, own, covers, ?_⟩
    · rw [← at_i, List.getElem_cons_drop, List.take_append_drop]
    · intro other member taken
      obtain ⟨j, early, at_j⟩ := List.mem_take_iff_getElem.mp member
      apply first j (by omega)
      rw [at_j]
      exact (claims_iff principal resource other).mpr taken

theorem counts_on_iff (grants : List GrantInfo) (window : Window) (buckets : Nat)
    (unique : (grants.map GrantInfo.id).Nodup) (ahead : List AuditEntry) (e : AuditEntry)
    (id : GrantId) (principal : PrincipalId) (resource : Resource) (rights : Rights)
    (reason : String) (event : e.event = .deny principal resource rights reason) :
    CountsOn grants window buckets ahead e id ↔ Foremost grants id principal resource := by
  have before := seeds_run ahead grants window buckets
  obtain ⟨after, counts⟩ := seeds_step before window buckets (indexGrants grants) e
  have stepped : (collect ahead grants window buckets).step window buckets (indexGrants grants) e =
      collect (ahead ++ [e]) grants window buckets := by
    rw [collect, collect, List.foldl_append]
    rfl
  have home : homeAmong grants e = grants.findIdx? (claims principal resource) := by
    rw [homeAmong, event]
  rw [stepped] at after counts
  rw [home] at counts
  rw [foremost_iff]
  have at_grant : ∀ i g, grants[i]? = some g →
      (collect (ahead ++ [e]) grants window buckets).denialsOf g.id =
        ((collect ahead grants window buckets).denialsOf g.id).map fun n =>
          if grants.findIdx? (claims principal resource) = some i then n + 1 else n := by
    intro i g found
    rw [row_of_grant after unique found, row_of_grant before unique found]
    exact counts i (List.getElem?_eq_some_iff.mp found).1
  constructor
  · rintro ⟨⟨n, had, has⟩, _⟩
    by_cases listed : id ∈ grants.map GrantInfo.id
    · obtain ⟨g, member, same⟩ := List.mem_map.mp listed
      obtain ⟨i, found⟩ := List.mem_iff_getElem?.mp member
      have raised := at_grant i g found
      rw [same, had, has, Option.map_some] at raised
      by_cases here : grants.findIdx? (claims principal resource) = some i
      · exact ⟨i, g, here, found, same⟩
      · rw [if_neg here] at raised
        have unchanged : n + 1 = n := Option.some.inj raised
        simp at unchanged
    · rw [unlisted_counts_nothing before listed] at had
      cases had
  · rintro ⟨i, g, here, found, same⟩
    constructor
    · have raised := at_grant i g found
      obtain ⟨row, at_row, _⟩ := grant_at before found
      have own : (collect ahead grants window buckets).denialsOf g.id = some row.channel.denials := by
        rw [row_of_grant before unique found, Draft.denials, List.getElem?_map, at_row]
        rfl
      rw [own, Option.map_some, if_pos here] at raised
      rw [← same]
      exact ⟨_, own, raised⟩
    · intro other apart
      by_cases listed : other ∈ grants.map GrantInfo.id
      · obtain ⟨g', member, same'⟩ := List.mem_map.mp listed
        obtain ⟨j, found'⟩ := List.mem_iff_getElem?.mp member
        have kept := at_grant j g' found'
        have elsewhere : ¬grants.findIdx? (claims principal resource) = some j := by
          intro there
          rw [here] at there
          cases there
          rw [found] at found'
          cases found'
          exact apart (same'.symm.trans same)
        rw [same'] at kept
        simp only [elsewhere, if_false, Option.map_id'] at kept
        exact kept
      · rw [unlisted_counts_nothing before listed, unlisted_counts_nothing after listed]

/-! ## The model of a broker -/

/-- `Glass::model_within`, with the grants in the order that `Broker::grants` lists them. -/
def modelWithin (broker : Broker) (device : Device) (grants : List GrantInfo) (window : Window)
    (buckets : Nat) : Except Error Model := do
  let entries ← broker.audit device
  .ok (build entries grants window buckets)

/-- What a channel of the model counts is what the fold over the whole log counted for its grant. -/
theorem shown_denials (entries : List AuditEntry) (grants : List GrantInfo) (window : Window)
    (buckets : Nat) (unique : (grants.map GrantInfo.id).Nodup) :
    ∀ shown ∈ (build entries grants window buckets).listed, ∀ id, shown.2.grant = some id →
      (collect entries grants window buckets).denialsOf id = some shown.2.denials := by
  intro shown member id backed
  have seeds := seeds_run entries grants window buckets
  have listed := group_listed ((collect entries grants window buckets).kept window)
  obtain ⟨c, kept, same⟩ := List.mem_map.mp (listed.mem_iff.mp member)
  rw [Draft.kept, List.mem_map] at kept
  obtain ⟨plain, among, sorted⟩ := kept
  obtain ⟨row, inside, channel⟩ := List.mem_map.mp (List.mem_filter.mp among).1
  have shows : shown.2 = row.channel.sorted := by rw [← same, ← sorted, ← channel]
  rw [shows] at backed ⊢
  obtain ⟨i, here⟩ := List.mem_iff_getElem?.mp inside
  obtain ⟨g, found, ids⟩ := standing_at seeds here id backed
  rw [← ids, row_of_grant seeds unique found, Draft.denials, List.getElem?_map, here]
  rfl

/-- Broker::grants lists every grant once, in an order of its own. -/
theorem listed_once (broker : Broker) (now : UInt64) (filed : Aura.Filed broker.grants)
    (grants : List GrantInfo) (listed : grants.Perm (broker.grantInfos now)) :
    (grants.map GrantInfo.id).Nodup := by
  have unsorted : (grants.map GrantInfo.id).Perm
      ((broker.grants.entries.map fun item => item.2.info now).map GrantInfo.id) :=
    (listed.trans (List.mergeSort_perm _ _)).map _
  have keys : (broker.grants.entries.map fun item => item.2.info now).map GrantInfo.id =
      broker.grants.keys := by
    rw [List.map_map]
    apply List.map_congr_left
    rintro ⟨key, state⟩ entry
    exact filed key state (AList.mem_lookup_iff.mpr entry)
  rw [unsorted.nodup_iff, keys]
  exact AList.keys_nodup broker.grants

/-! ## Runs -/

/-- The broker is handed the handle of a grant that covers the resource, refuses, and logs it. -/
structure Denied (ls : Lifestream) (life : Life) (weather : Weather) (draw : Draw)
    (cap : Capability) (resource : Resource) (rights : Rights) (principal : PrincipalId)
    (reason : String) (e : AuditEntry) : Prop where
  exercised : ∃ broker state, life.broker = some broker ∧
    broker.grants.lookup cap.grant = some state ∧ state.secret = some cap.secret ∧
    state.grant.principal = principal ∧ state.grant.resource.covers resource = true ∧
    refusal broker draw.now cap resource rights = some reason
  logged : (lifeStep ls life (weather, .call draw (.access cap resource rights))).journal =
    life.journal ++ [e]

/-- The reasons that are left once the handle and the resource are right. -/
def refusals : List String := ["revoked", "expired", "use limit reached", "insufficient rights"]

section Denied

variable {ls : Lifestream} {life : Life} {weather : Weather} {draw : Draw} {cap : Capability}
  {resource : Resource} {rights : Rights} {principal : PrincipalId} {reason : String}
  {e : AuditEntry}

theorem denied_reason (denied : Denied ls life weather draw cap resource rights principal reason e) :
    reason ∈ refusals := by
  obtain ⟨broker, state, _, found, secret, _, covers, refused⟩ := denied.exercised
  simp only [refusal, found, secret, covers] at refused
  simp only [refusals, List.mem_cons]
  grind

theorem denied_event (denied : Denied ls life weather draw cap resource rights principal reason e) :
    e.event = .deny principal resource rights reason := by
  obtain ⟨broker, state, present, found, _, own, _, refused⟩ := denied.exercised
  have named : principalOf broker cap.grant = principal := by
    rw [principalOf, found]
    exact own
  have logs : eventOf broker draw (.access cap resource rights) =
      some (.deny principal resource rights reason) := by
    simp only [eventOf, refused, named]
  have logged := denied.logged
  simp only [lifeStep, present, Life.after] at logged
  obtain ⟨device, _, ⟨id, performed, _⟩ | ⟨_, ⟨error, performed⟩, _⟩⟩ :=
    logging_outcome (life.session broker weather) draw _ _ logs
  · rw [performed, final_answer] at logged
    have last := List.append_cancel_left logged
    rw [← (List.cons.inj last).1]
  · rw [performed] at logged
    -- a write that failed leaves the journal as it was
    have lengths := congrArg List.length logged
    rw [List.length_append, List.length_singleton] at lengths
    exact absurd lengths (Nat.ne_of_lt (Nat.lt_succ_self life.journal.length))

end Denied

theorem life_filed (ls : Lifestream) (disk : Device) (deeds : List (Weather × Deed)) :
    ∀ broker, (run (lifeStep ls) (.start disk) deeds).broker = some broker →
      Aura.Filed broker.grants := by
  apply run_invariant (lifeStep ls) fun life =>
    ∀ broker, life.broker = some broker → Aura.Filed broker.grants
  · rintro life ⟨weather, deed⟩ filed broker present
    cases deed with
    | openBroker policy =>
        cases opened : openBroker ls policy (inWeather life.device weather) with
        | error error =>
            rw [lifeStep, opened] at present
            cases present
        | ok other =>
            rw [lifeStep, opened] at present
            cases present
            obtain ⟨_, _, replayed⟩ := open_broker_reads policy _ broker opened
            exact Aura.filed_replay _ _ _ _ _ replayed
    | call draw call =>
        cases seated : life.broker with
        | none =>
            simp only [lifeStep, seated] at present
            cases present
        | some before =>
            simp only [lifeStep, seated, Life.after] at present
            cases present
            exact Aura.filed_perform draw call (life.session before weather) (filed before seated)
  · intro broker present
    cases present

/-- Over every life of a store: a denial of what a grant covers is counted on that grant's channel
and on no other's exactly when the grant is the first listed of its principal that covers it. -/
theorem denial_counted_iff (ls : Lifestream) (disk : Device) (earlier later : List (Weather × Deed))
    (weather : Weather) (draw : Draw) (cap : Capability) (resource : Resource) (rights : Rights)
    (principal : PrincipalId) (reason : String) (e : AuditEntry)
    (denied : Denied ls (run (lifeStep ls) (.start disk) earlier) weather draw cap resource rights
      principal reason e)
    (life : Life) (lived : life = run (lifeStep ls) (.start disk)
      (earlier ++ (weather, .call draw (.access cap resource rights)) :: later))
    (broker : Broker) (present : life.broker = some broker) (now : UInt64)
    (grants : List GrantInfo) (listed : grants.Perm (broker.grantInfos now)) (window : Window)
    (buckets : Nat) (model : Model)
    (shown : modelWithin broker life.device grants window buckets = .ok model) :
    reason ∈ refusals ∧
      ∃ entries, broker.audit life.device = .ok entries ∧
        (∀ row ∈ model.listed, ∀ id, row.2.grant = some id →
          (collect entries grants window buckets).denialsOf id = some row.2.denials) ∧
        ∀ ahead behind, entries = ahead ++ e.persisted :: behind →
          (CountsOn grants window buckets ahead e.persisted cap.grant ↔
            Foremost grants cap.grant principal resource.persisted) := by
  have filed : Aura.Filed broker.grants := by
    rw [lived] at present
    exact life_filed ls disk _ broker present
  have unique := listed_once broker now filed grants listed
  have event : e.persisted.event = .deny principal resource.persisted rights reason := by
    rw [AuditEntry.persisted, denied_event denied]
    rfl
  obtain ⟨entries, read, built⟩ := of_bind_ok shown
  cases built
  refine ⟨denied_reason denied, entries, read, shown_denials entries grants window buckets unique,
    fun ahead _ _ => ?_⟩
  exact counts_on_iff grants window buckets unique ahead e.persisted cap.grant principal
    resource.persisted rights reason event

/-! ### One grant, and two over the same path -/

def sampleExercise (byte : UInt8) : Weather × Deed :=
  (.fair, .call (sampleDraw 13 9)
    (.access ⟨sampleId byte, sampleMaster 3⟩ (samplePath "/data/x") Rights.READ))

/-- A grant of `/data`, revoked. -/
def severedDeeds : List (Weather × Deed) :=
  [(.fair, .openBroker .denyAll),
    (.fair, .call (sampleDraw 10 1) (.grant "app" (samplePath "/data") Rights.READ Limits.none)),
    (.fair, .call (sampleDraw 12 9) (.revoke (sampleId 1)))]

/-- Two grants of `/data`, the second of them revoked. -/
def overlappingDeeds : List (Weather × Deed) :=
  [(.fair, .openBroker .denyAll),
    (.fair, .call (sampleDraw 10 1) (.grant "app" (samplePath "/data") Rights.READ Limits.none)),
    (.fair, .call (sampleDraw 11 2) (.grant "app" (samplePath "/data") Rights.READ Limits.none)),
    (.fair, .call (sampleDraw 12 9) (.revoke (sampleId 2)))]

def sampleLife (deeds : List (Weather × Deed)) : Life :=
  run (lifeStep sampleStore) (.start Device.fresh) deeds

/-- The entry of a refused exercise, at the head of the log. -/
def sampleRefusal (life : Life) (seq : UInt64) : AuditEntry where
  id := (life.broker.bind Broker.head).getD (HorizonOs.Lib.ByteCodec.FixedBytes.ofBytes 32 [])
  seq := seq
  timeUnix := 13
  event := .deny "app" (samplePath "/data/x") Rights.READ "revoked"

theorem sample_refusal_persisted (life : Life) (seq : UInt64) :
    (sampleRefusal life seq).persisted = sampleRefusal life seq := by
  have path : (samplePath "/data/x").persisted = samplePath "/data/x" := by decide
  simp only [AuditEntry.persisted, sampleRefusal, Event.persisted, path]

def sampleInfo (byte : UInt8) (grantedUnix : UInt64) (status : Status) : GrantInfo where
  id := sampleId byte
  principal := "app"
  resource := samplePath "/data"
  rights := Rights.READ
  grantedUnix := grantedUnix
  expiresUnix := none
  maxUses := none
  uses := 0
  status := status

/-- What the broker of a life knows of a handle's grant, and why it refuses the handle. -/
def refusesHandle (life : Life) (byte : UInt8) :
    Option (Option Secret × PrincipalId × Resource × Option String) :=
  life.broker.bind fun broker => (broker.grants.lookup (sampleId byte)).map fun state =>
    (state.secret, state.grant.principal, state.grant.resource,
      refusal broker 13 ⟨sampleId byte, sampleMaster 3⟩ (samplePath "/data/x") Rights.READ)

theorem sample_denied (life : Life) (byte : UInt8) (e : AuditEntry)
    (refuses : refusesHandle life byte =
      some (some (sampleMaster 3), "app", samplePath "/data", some "revoked"))
    (logged : (lifeStep sampleStore life (sampleExercise byte)).journal = life.journal ++ [e]) :
    Denied sampleStore life .fair (sampleDraw 13 9) ⟨sampleId byte, sampleMaster 3⟩
      (samplePath "/data/x") Rights.READ "app" "revoked" e := by
  obtain ⟨broker, present, known⟩ := Option.bind_eq_some_iff.mp refuses
  obtain ⟨state, found, same⟩ := Option.map_eq_some_iff.mp known
  obtain ⟨secret, principal, resource, refused⟩ : state.secret = some (sampleMaster 3) ∧
      state.grant.principal = "app" ∧ state.grant.resource = samplePath "/data" ∧ _ = _ := by
    simpa only [Prod.mk.injEq] using same
  refine ⟨⟨broker, state, present, found, secret, principal, ?_, refused⟩, logged⟩
  rw [resource]
  decide

theorem severed_denial_counted :
    ∃ broker ahead e, (sampleLife (severedDeeds ++ [sampleExercise 1])).broker = some broker ∧
      broker.audit (sampleLife (severedDeeds ++ [sampleExercise 1])).device = .ok (ahead ++ [e]) ∧
      CountsOn [sampleInfo 1 10 .revoked] ⟨0, 100⟩ 7 ahead e (sampleId 1) := by
  have logged : (lifeStep sampleStore (sampleLife severedDeeds) (sampleExercise 1)).journal =
      (sampleLife severedDeeds).journal ++
        [sampleRefusal (sampleLife (severedDeeds ++ [sampleExercise 1])) 2] := by
    decide +kernel
  have read : (sampleLife (severedDeeds ++ [sampleExercise 1])).broker.map (fun broker =>
      ((broker.grants.entries.map fun item => item.2.info 14),
        (broker.audit (sampleLife (severedDeeds ++ [sampleExercise 1])).device).toOption)) =
      some ([sampleInfo 1 10 .revoked], some ((sampleLife severedDeeds).journal ++
        [sampleRefusal (sampleLife (severedDeeds ++ [sampleExercise 1])) 2])) := by
    decide +kernel
  obtain ⟨broker, present, both⟩ := Option.map_eq_some_iff.mp read
  obtain ⟨infos, audited⟩ := Prod.mk.inj both
  have entries := of_to_option audited
  have listed : [sampleInfo 1 10 .revoked].Perm (broker.grantInfos 14) := by
    rw [← infos]
    exact (List.mergeSort_perm _ _).symm
  have shown : modelWithin broker (sampleLife (severedDeeds ++ [sampleExercise 1])).device
      [sampleInfo 1 10 .revoked] ⟨0, 100⟩ 7 = .ok (build _ _ _ _) := bind_ok entries rfl
  obtain ⟨_, entries', read', _, counted⟩ := denial_counted_iff sampleStore Device.fresh
    severedDeeds [] .fair (sampleDraw 13 9) ⟨sampleId 1, sampleMaster 3⟩ (samplePath "/data/x")
    Rights.READ "app" "revoked" _
    (sample_denied (sampleLife severedDeeds) 1 _ (by decide +kernel) logged) _ rfl broker present 14
    [sampleInfo 1 10 .revoked] listed ⟨0, 100⟩ 7 _ shown
  rw [sample_refusal_persisted] at counted
  have same := Except.ok.inj (read'.symm.trans entries)
  refine ⟨broker, _, _, present, entries, (counted _ [] same).mpr ?_⟩
  refine ⟨[], sampleInfo 1 10 .revoked, [], rfl, rfl, rfl, by decide, ?_⟩
  exact List.forall_mem_nil _

/-- The revoked grant is exercised, and the denial is counted on the grant that still stands. -/
theorem overlapping_denial_misplaced :
    ∃ broker ahead e, Denied sampleStore (sampleLife overlappingDeeds) .fair (sampleDraw 13 9)
        ⟨sampleId 2, sampleMaster 3⟩ (samplePath "/data/x") Rights.READ "app" "revoked" e ∧
      (sampleLife (overlappingDeeds ++ [sampleExercise 2])).broker = some broker ∧
      [sampleInfo 1 10 .active, sampleInfo 2 11 .revoked].Perm (broker.grantInfos 14) ∧
      broker.audit (sampleLife (overlappingDeeds ++ [sampleExercise 2])).device =
        .ok (ahead ++ [e]) ∧
      CountsOn [sampleInfo 1 10 .active, sampleInfo 2 11 .revoked] ⟨0, 100⟩ 7 ahead e
        (sampleId 1) ∧
      ¬CountsOn [sampleInfo 1 10 .active, sampleInfo 2 11 .revoked] ⟨0, 100⟩ 7 ahead e
        (sampleId 2) := by
  have logged : (lifeStep sampleStore (sampleLife overlappingDeeds) (sampleExercise 2)).journal =
      (sampleLife overlappingDeeds).journal ++
        [sampleRefusal (sampleLife (overlappingDeeds ++ [sampleExercise 2])) 3] := by
    decide +kernel
  have read : (sampleLife (overlappingDeeds ++ [sampleExercise 2])).broker.map (fun broker =>
      ((broker.grants.entries.map fun item => item.2.info 14),
        (broker.audit (sampleLife (overlappingDeeds ++ [sampleExercise 2])).device).toOption)) =
      some ([sampleInfo 2 11 .revoked, sampleInfo 1 10 .active],
        some ((sampleLife overlappingDeeds).journal ++
          [sampleRefusal (sampleLife (overlappingDeeds ++ [sampleExercise 2])) 3])) := by
    decide +kernel
  obtain ⟨broker, present, both⟩ := Option.map_eq_some_iff.mp read
  obtain ⟨infos, audited⟩ := Prod.mk.inj both
  have counted : CountsOn [sampleInfo 1 10 .active, sampleInfo 2 11 .revoked] ⟨0, 100⟩ 7
      (sampleLife overlappingDeeds).journal
      (sampleRefusal (sampleLife (overlappingDeeds ++ [sampleExercise 2])) 3) (sampleId 1) := by
    rw [counts_on_iff _ _ _ (by decide) _ _ _ _ _ _ _ rfl]
    refine ⟨[], sampleInfo 1 10 .active, [sampleInfo 2 11 .revoked], rfl, rfl, rfl, by decide, ?_⟩
    exact List.forall_mem_nil _
  refine ⟨broker, _, _, sample_denied _ 2 _ (by decide +kernel) logged, present, ?_,
    of_to_option audited, counted, ?_⟩
  · have unsorted : (broker.grants.entries.map fun item => item.2.info 14).Perm
        (broker.grantInfos 14) := (List.mergeSort_perm _ _).symm
    rw [infos] at unsorted
    exact (List.Perm.swap _ _ _).trans unsorted
  · intro both
    obtain ⟨n, had, has⟩ := both.own
    rw [counted.others (sampleId 2) (by decide), had] at has
    have unchanged : n = n + 1 := Option.some.inj has
    simp at unchanged

end HorizonOs.Glass
