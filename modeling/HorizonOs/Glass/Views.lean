import HorizonOs.Glass.Channels

/-!
# Glass hides no live authority

The views partition the channels by principal, their counters count them, and of the channels
that can be severed there is one for each active grant and no other.
-/

namespace HorizonOs.Glass

open HorizonOs.Lib.Grouping
open HorizonOs.Weave (AuditEntry Event GrantId GrantInfo PrincipalId Resource Rights)

set_option autoImplicit false

/-! ## The views of the channels -/

/-- The rows of a model: each channel with the principal it is shown under. -/
def listedIn (views : List PrincipalView) : List (PrincipalId × Channel) :=
  views.flatMap fun view => view.channels.map fun c => (view.principal, c)

def Model.listed (model : Model) : List (PrincipalId × Channel) := listedIn model.principals

theorem group_perm (channels : List Channel) : (group channels).Perm
    ((groups Channel.principal channels).map fun pair => viewOf pair.1 pair.2) :=
  List.mergeSort_perm _ _

theorem view_of_channels (principal : PrincipalId) (channels : List Channel) :
    (viewOf principal channels).channels.Perm channels := List.mergeSort_perm _ _

theorem group_apart (channels : List Channel) :
    ((group channels).map PrincipalView.principal).Nodup := by
  rw [((group_perm channels).map PrincipalView.principal).nodup_iff, List.map_map]
  exact nodup_groups channels

/-- Every channel is listed once, and under its own principal. -/
theorem group_listed (channels : List Channel) :
    (listedIn (group channels)).Perm (channels.map fun c => (c.principal, c)) := by
  have unsorted := (group_perm channels).flatMap_right
    fun view => view.channels.map fun c => (view.principal, c)
  refine unsorted.trans ?_
  rw [List.flatMap_map]
  have own : ∀ pair ∈ groups Channel.principal channels,
      ((viewOf pair.1 pair.2).channels.map fun c => (pair.1, c)).Perm
        (pair.2.map fun c => (c.principal, c)) := by
    intro pair member
    refine ((view_of_channels pair.1 pair.2).map _).trans ?_
    apply List.Perm.of_eq
    apply List.map_congr_left
    intro c among
    rw [own_groups channels pair member c among]
  refine (List.Perm.flatMap_left _ own).trans ?_
  rw [← List.map_flatMap]
  exact (items_groups channels).map _

theorem group_counts (channels : List Channel) : ∀ view ∈ group channels,
    view.live = UInt32.ofNat (view.channels.countP Channel.isLive) ∧
      view.blocked = UInt32.ofNat (view.channels.countP fun c => c.status = .blocked) := by
  intro view member
  obtain ⟨pair, _, same⟩ := List.mem_map.mp ((group_perm channels).mem_iff.mp member)
  rw [← same]
  have sorted := view_of_channels pair.1 pair.2
  exact ⟨congrArg UInt32.ofNat (sorted.countP_eq _).symm,
    congrArg UInt32.ofNat (sorted.countP_eq _).symm⟩

/-! ## The totals -/

/-- The counts over listed channels. -/
def Totals.counting (views : Nat) (channels : List Channel) : Totals where
  principals := UInt32.ofNat views
  live := UInt32.ofNat (channels.countP Channel.isLive)
  network := UInt32.ofNat (channels.countP fun c => c.isLive && c.kind = .network)
  blocked := UInt32.ofNat (channels.countP fun c => c.status = .blocked)
  severed := UInt32.ofNat (channels.countP fun c => c.status = .severed)

theorem counting_add (views : Nat) (channels : List Channel) (c : Channel) :
    (Totals.counting views channels).add c = Totals.counting views (channels ++ [c]) := by
  obtain ⟨principal, resource, kind, rights, grant, status⟩ := c
  cases status with
  | live =>
      by_cases network : kind = .network
      · simp [Totals.counting, Totals.add, Channel.isLive, List.countP_append, network]
      · simp [Totals.counting, Totals.add, Channel.isLive, List.countP_append, network]
  | severed => simp [Totals.counting, Totals.add, Channel.isLive, List.countP_append]
  | expired => simp [Totals.counting, Totals.add, Channel.isLive, List.countP_append]
  | blocked => simp [Totals.counting, Totals.add, Channel.isLive, List.countP_append]

theorem fold_counting (views : Nat) (before channels : List Channel) :
    channels.foldl Totals.add (Totals.counting views before) =
      Totals.counting views (before ++ channels) := by
  induction channels generalizing before with
  | nil => rw [List.append_nil, List.foldl_nil]
  | cons c rest ih =>
      rw [List.foldl_cons, counting_add, ih, List.append_assoc, List.singleton_append]

theorem totals_counting (views : List PrincipalView) :
    totals views = Totals.counting views.length ((listedIn views).map Prod.snd) := by
  have channels : (listedIn views).map Prod.snd = views.flatMap PrincipalView.channels := by
    rw [listedIn, List.map_flatMap]
    apply congrArg (views.flatMap ·)
    funext view
    rw [List.map_map]
    exact List.map_id _
  rw [channels]
  exact fold_counting views.length [] _

/-! ## Channels that can be severed -/

theorem filter_eq_singleton {α κ : Type} [DecidableEq κ] (key : α → κ) {items : List α} {a : α}
    (apart : (items.map key).Nodup) (member : a ∈ items) :
    items.filter (fun b => key b = key a) = [a] := by
  induction items with
  | nil => cases member
  | cons b rest ih =>
      rw [List.map_cons, List.nodup_cons] at apart
      rcases List.mem_cons.mp member with here | later
      · have none_behind : rest.filter (fun c => key c = key a) = [] := by
          apply List.filter_eq_nil_iff.mpr
          intro c among same
          apply apart.1
          rw [← here, ← of_decide_eq_true same]
          exact List.mem_map_of_mem among
        rw [List.filter_cons, if_pos (decide_eq_true (congrArg key here.symm)), none_behind, here]
      · have other : key b ≠ key a := fun same =>
          apart.1 (same ▸ List.mem_map_of_mem later)
        rw [List.filter_cons, if_neg (by simpa using other), ih apart.2 later]

def Standing.severable (standing : Standing) : Bool :=
  standing.grant.isSome && standing.status = .live

theorem refused_not_severable {standing : Standing} (refused : standing.Refused) :
    standing.severable = false := by
  rw [Standing.severable, refused.1]
  rfl

theorem seeded_severable (g : GrantInfo) :
    (seeded g).standing.severable = decide (g.status = .active) := by
  cases status : g.status with
  | active => simp [seeded, Channel.standing, Standing.severable, status, ChannelStatus.from_status]
  | revoked => simp [seeded, Channel.standing, Standing.severable, status, ChannelStatus.from_status]
  | expired => simp [seeded, Channel.standing, Standing.severable, status, ChannelStatus.from_status]

theorem sorted_standing (c : Channel) : c.sorted.standing = c.standing := rfl

/-- The channels of a draft are those of the grants, as they stand, and refused ones. -/
def FromGrants (grants : List GrantInfo) (draft : Draft) : Prop :=
  ∃ added : List Standing, (∀ standing ∈ added, standing.Refused) ∧
    draft.standings = (grants.map fun g => (seeded g).standing) ++ added

section Severable

variable {grants : List GrantInfo} {draft : Draft}

theorem kept_severable (draft : Draft) (window : Window) :
    (draft.kept window).filter Channel.canSever =
      ((draft.rows.map Row.channel).filter Channel.canSever).map Channel.sorted := by
  have kept : ∀ c : Channel, (Channel.canSever c && Channel.isKept window c) = c.canSever := by
    intro c
    cases severable : c.canSever with
    | false => rfl
    | true =>
        rw [Channel.canSever, Bool.and_eq_true] at severable
        rw [Channel.isKept, Channel.isLive, severable.2, Bool.true_or, Bool.and_true]
  rw [Draft.kept, List.filter_map, List.filter_filter]
  apply congrArg (List.map Channel.sorted)
  apply List.filter_congr
  intro c _
  exact kept c

/-- The kept channels that can be severed stand as the active grants do. -/
theorem severable_standings (from_grants : FromGrants grants draft) (window : Window) :
    ((draft.kept window).filter Channel.canSever).map Channel.standing =
      (grants.filter fun g => g.status = .active).map fun g => (seeded g).standing := by
  obtain ⟨added, refused, standings⟩ := from_grants
  have none_added : added.filter Standing.severable = [] := by
    apply List.filter_eq_nil_iff.mpr
    intro standing member
    rw [refused_not_severable (refused standing member)]
    exact Bool.false_ne_true
  calc
    ((draft.kept window).filter Channel.canSever).map Channel.standing
      = ((draft.rows.map Row.channel).filter Channel.canSever).map Channel.standing := by
        rw [kept_severable, List.map_map]
        rfl
    _ = draft.standings.filter Standing.severable := by
        rw [Draft.standings, List.filter_map, List.filter_map, List.map_map]
        rfl
    _ = (grants.map fun g => (seeded g).standing).filter Standing.severable := by
        rw [standings, List.filter_append, none_added, List.append_nil]
    _ = (grants.filter fun g => g.status = .active).map fun g => (seeded g).standing := by
        rw [List.filter_map]
        apply congrArg (List.map _)
        apply List.filter_congr
        intro g _
        exact seeded_severable g

/-- Of the kept channels that can be severed, an active grant backs exactly one. -/
theorem one_severable (from_grants : FromGrants grants draft) (window : Window)
    (unique : (grants.map GrantInfo.id).Nodup) {g : GrantInfo} (member : g ∈ grants)
    (active : g.status = .active) :
    ∃ c : Channel, c.standing = (seeded g).standing ∧
      (draft.kept window).filter (fun c => c.canSever && c.grant = some g.id) = [c] := by
  have standings := congrArg (List.filter fun standing : Standing => standing.grant = some g.id)
    (severable_standings from_grants window)
  have backed : (fun standing : Standing => decide (standing.grant = some g.id)) ∘
      (fun other : GrantInfo => (seeded other).standing) = fun other => decide (other.id = g.id) := by
    funext other
    exact decide_eq_decide.mpr Option.some_inj
  have found : (grants.filter fun other => other.status = .active).filter
      (fun other => other.id = g.id) = [g] :=
    filter_eq_singleton GrantInfo.id (unique.sublist (List.filter_sublist.map _))
      (List.mem_filter.mpr ⟨member, decide_eq_true active⟩)
  rw [List.filter_map, List.filter_map, backed, found, List.filter_filter] at standings
  obtain ⟨c, only, same⟩ := List.map_eq_singleton_iff.mp standings
  refine ⟨c, same, ?_⟩
  rw [← only]
  apply List.filter_congr
  intro other _
  exact Bool.and_comm _ _

theorem backed_of_severable (from_grants : FromGrants grants draft) (window : Window) {c : Channel}
    (kept : c ∈ draft.kept window) (severable : c.canSever = true) :
    ∃ g ∈ grants, c.grant = some g.id ∧ g.status = .active := by
  have member := List.mem_map_of_mem (f := Channel.standing)
    (List.mem_filter.mpr ⟨kept, severable⟩)
  rw [severable_standings from_grants window] at member
  obtain ⟨g, among, same⟩ := List.mem_map.mp member
  obtain ⟨listed, active⟩ := List.mem_filter.mp among
  exact ⟨g, listed, (congrArg Standing.grant same).symm, of_decide_eq_true active⟩

end Severable

/-! ## The model -/

/-- What a model shows of a grant table and of the channels that were kept. -/
structure Shows (grants : List GrantInfo) (kept : List Channel) (model : Model) : Prop where
  /-- An active grant has one row that can be severed, under its own principal. -/
  active : ∀ g ∈ grants, g.status = .active → ∃ c : Channel, c.principal = g.principal ∧
    c.resource = g.resource ∧
      model.listed.filter (fun row => row.2.canSever && row.2.grant = some g.id) = [(g.principal, c)]
  /-- No other row can be severed. -/
  severable : ∀ row ∈ model.listed, row.2.canSever = true →
    ∃ g ∈ grants, row.2.grant = some g.id ∧ g.status = .active ∧
      ∀ other ∈ grants, row.2.grant = some other.id → other = g
  /-- Every channel that was kept is listed once, under its own principal. -/
  listed : model.listed.Perm (kept.map fun c => (c.principal, c))
  apart : (model.principals.map PrincipalView.principal).Nodup
  counts : ∀ view ∈ model.principals,
    view.live = UInt32.ofNat (view.channels.countP Channel.isLive) ∧
      view.blocked = UInt32.ofNat (view.channels.countP fun c => c.status = .blocked)
  totals : model.totals = Totals.counting model.principals.length (model.listed.map Prod.snd)

theorem seed_denials (grants : List GrantInfo) (window : Window) (buckets : Nat) :
    Attributed [] (seedDraft grants window buckets) [] := by
  refine ⟨.nil, fun i row found => ?_⟩
  obtain ⟨g, _, same⟩ := List.mem_map.mp (List.mem_of_getElem? found)
  rw [← same]
  rfl

theorem seed_standings (grants : List GrantInfo) (window : Window) (buckets : Nat) :
    (seedDraft grants window buckets).standings = grants.map fun g => (seeded g).standing := by
  rw [Draft.standings, seedDraft, List.map_map]
  rfl

/-- For every log whose principals are free of NUL and every grant table that has each id once:
what the model shows, and where each denial of the log counts before any row is dropped. -/
theorem glass_hides_no_authority (entries : List AuditEntry) (grants : List GrantInfo)
    (window : Window) (buckets : Nat)
    (plain : ∀ e ∈ entries, ∀ principal, deniedPrincipal e.event = some principal →
      '\x00' ∉ principal.toList)
    (unique : (grants.map GrantInfo.id).Nodup) :
    Shows grants ((collect entries grants window buckets).kept window)
        (build entries grants window buckets) ∧
      ∃ homes, Attributed entries (collect entries grants window buckets) homes := by
  have keyed : (seedDraft grants window buckets).Keyed := nofun
  obtain ⟨⟨added, refused, standings⟩, homes, attributed⟩ :=
    attributed_run window buckets (indexGrants grants) entries [] _ []
      (seed_denials grants window buckets) keyed plain
  rw [seed_standings] at standings
  have from_grants : FromGrants grants (collect entries grants window buckets) :=
    ⟨added, refused, standings⟩
  have listed := group_listed ((collect entries grants window buckets).kept window)
  refine ⟨⟨?_, ?_, listed, group_apart _, group_counts _, totals_counting _⟩, homes, attributed⟩
  · intro g member active
    obtain ⟨c, standing, only⟩ := one_severable from_grants window unique member active
    have principal : c.principal = g.principal := congrArg Standing.principal standing
    refine ⟨c, principal, congrArg Standing.resource standing, ?_⟩
    have rows := listed.filter fun row => row.2.canSever && row.2.grant = some g.id
    rw [List.filter_map] at rows
    have own : ((fun row : PrincipalId × Channel => row.2.canSever &&
        decide (row.2.grant = some g.id)) ∘ fun c => (c.principal, c)) =
        fun c => c.canSever && decide (c.grant = some g.id) := rfl
    rw [own, only, List.map_singleton, principal] at rows
    exact List.perm_singleton.mp rows
  · intro row member severable
    obtain ⟨c, kept, same⟩ := List.mem_map.mp (listed.mem_iff.mp member)
    rw [← same] at severable ⊢
    obtain ⟨g, among, backs, active⟩ := backed_of_severable from_grants window kept severable
    refine ⟨g, among, backs, active, fun other listed' backs' => ?_⟩
    have ids : other.id = g.id := Option.some.inj (backs'.symm.trans backs)
    exact List.inj_on_of_nodup_map unique listed' among ids

/-! ### Two grants and two denials -/

def sampleGrant (byte : UInt8) (principal : PrincipalId) (status : HorizonOs.Weave.Status) :
    GrantInfo where
  id := HorizonOs.Lib.ByteCodec.FixedBytes.ofBytes 16 [byte]
  principal := principal
  resource := .net "example.org" 443
  rights := Rights.READ
  grantedUnix := 10
  expiresUnix := none
  maxUses := none
  uses := 0
  status := status

def sampleDenial (seq : UInt64) (resource : Resource) : AuditEntry where
  id := HorizonOs.Lib.ByteCodec.FixedBytes.ofBytes 32 []
  seq := seq
  timeUnix := 20
  event := .deny "editor" resource Rights.WRITE "policy"

theorem sample_shown :
    Shows [sampleGrant 1 "editor" .revoked, sampleGrant 2 "mail" .active]
        ((collect [sampleDenial 0 (.net "example.org" 443), sampleDenial 1 (.device "camera")]
          [sampleGrant 1 "editor" .revoked, sampleGrant 2 "mail" .active] ⟨0, 100⟩ 7).kept ⟨0, 100⟩)
        (build [sampleDenial 0 (.net "example.org" 443), sampleDenial 1 (.device "camera")]
          [sampleGrant 1 "editor" .revoked, sampleGrant 2 "mail" .active] ⟨0, 100⟩ 7) ∧
      ∃ homes, Attributed
        [sampleDenial 0 (.net "example.org" 443), sampleDenial 1 (.device "camera")]
        (collect [sampleDenial 0 (.net "example.org" 443), sampleDenial 1 (.device "camera")]
          [sampleGrant 1 "editor" .revoked, sampleGrant 2 "mail" .active] ⟨0, 100⟩ 7) homes := by
  apply glass_hides_no_authority
  · intro e member principal denied
    rcases List.mem_cons.mp member with first | second
    · rw [first] at denied
      cases denied
      decide
    · rw [List.mem_singleton.mp second] at denied
      cases denied
      decide
  · decide

end HorizonOs.Glass
