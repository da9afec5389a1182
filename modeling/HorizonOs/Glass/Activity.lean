import HorizonOs.Glass.Denials

/-!
# When a channel was last active

Over the fold a row stands as it did and is active no less recently. Each denial and each use makes
a row as recent as its entry, and no row is more recent than the log and the grants are.
-/

namespace HorizonOs.Glass

open HorizonOs.Weave (AuditEntry Event GrantId GrantInfo PrincipalId Resource Rights)

set_option autoImplicit false

/-- The channel has been active at this time or later. -/
def Channel.ActiveSince (c : Channel) (t : UInt64) : Prop := ∃ last, c.lastUnix = some last ∧ t ≤ last

/-- The channel is where a denial of the resource is counted. -/
def Channel.Takes (c : Channel) (principal : PrincipalId) (resource : Resource) : Prop :=
  c.grant.isSome = true ∧ c.principal = principal ∧ c.resource.covers resource = true ∨
    c.grant = none ∧ denyKey c.principal c.resource = denyKey principal resource

/-! ## Rows -/

/-- A row and what became of it. -/
structure Row.Ages (row after : Row) : Prop where
  standing : after.channel.standing = row.channel.standing
  active : ∀ t, row.channel.ActiveSince t → after.channel.ActiveSince t
  denied : row.channel.lastReason.isSome = true → after.channel.lastReason.isSome = true

theorem Row.Ages.refl (row : Row) : row.Ages row := ⟨rfl, fun _ => id, id⟩

theorem Row.Ages.trans {row middle after : Row} (first : row.Ages middle)
    (second : middle.Ages after) : row.Ages after where
  standing := second.standing.trans first.standing
  active t := second.active t ∘ first.active t
  denied := second.denied ∘ first.denied

theorem Row.Ages.grant {row after : Row} (ages : row.Ages after) :
    after.channel.grant = row.channel.grant := congrArg Standing.grant ages.standing

theorem Row.Ages.takes {row after : Row} (ages : row.Ages after) {principal : PrincipalId}
    {resource : Resource} (taken : row.channel.Takes principal resource) :
    after.channel.Takes principal resource := by
  have named : after.channel.principal = row.channel.principal :=
    congrArg Standing.principal ages.standing
  have reached : after.channel.resource = row.channel.resource :=
    congrArg Standing.resource ages.standing
  rw [Channel.Takes, ages.grant, named, reached]
  exact taken

theorem later_of_two (s t : UInt64) : s ≤ max s t ∧ t ≤ max s t ∧ (max s t = s ∨ max s t = t) := by
  have split : max s t = if s ≤ t then t else s := rfl
  rw [split]
  split_ifs with ordered
  · exact ⟨ordered, UInt64.le_refl t, .inr rfl⟩
  · refine ⟨UInt64.le_refl s, ?_, .inl rfl⟩
    rcases UInt64.le_total s t with before | behind
    · exact absurd before ordered
    · exact behind

theorem active_advance (c : Channel) (t : UInt64) : (c.advance t).ActiveSince t := by
  refine ⟨_, rfl, ?_⟩
  cases c.lastUnix with
  | none => exact UInt64.le_refl t
  | some last => exact (later_of_two last t).2.1

theorem advance_active (c : Channel) (t earlier : UInt64) (active : c.ActiveSince earlier) :
    (c.advance t).ActiveSince earlier := by
  obtain ⟨last, found, before⟩ := active
  refine ⟨max last t, ?_, UInt64.le_trans before (later_of_two last t).1⟩
  simp only [Channel.advance, found, Option.elim_some]

theorem advance_last (c : Channel) (t last : UInt64) (found : (c.advance t).lastUnix = some last) :
    last = t ∨ c.lastUnix = some last := by
  cases before : c.lastUnix with
  | none =>
      simp only [Channel.advance, before, Option.elim_none, Option.some_inj] at found
      exact .inl found.symm
  | some earlier =>
      simp only [Channel.advance, before, Option.elim_some, Option.some_inj] at found
      rcases (later_of_two earlier t).2.2 with same | same
      · exact .inr (by rw [← found, same])
      · exact .inl (by rw [← found, same])

theorem note_access_last (row : Row) (resource : Resource) :
    (row.noteAccess resource).channel.lastUnix = row.channel.lastUnix ∧
      (row.noteAccess resource).channel.lastReason = row.channel.lastReason := by
  simp only [Row.noteAccess]
  split_ifs
  · exact ⟨rfl, rfl⟩
  · exact ⟨rfl, rfl⟩
  · exact ⟨rfl, rfl⟩

/-- What a use does to the row of its grant. -/
def Row.use (resource : Resource) (t : UInt64) (row : Row) : Row :=
  Row.noteAccess { row with channel := row.channel.advance t } resource

theorem use_last (row : Row) (resource : Resource) (t : UInt64) :
    (row.use resource t).channel.lastUnix = (row.channel.advance t).lastUnix :=
  (note_access_last _ resource).1

theorem use_ages (row : Row) (resource : Resource) (t : UInt64) : row.Ages (row.use resource t) where
  standing := (note_access_keeps _ resource).1
  active earlier active := by
    rw [Channel.ActiveSince, use_last]
    exact advance_active row.channel t earlier active
  denied reason := by
    rw [Row.use, (note_access_last _ resource).2]
    exact reason

theorem deny_ages (row : Row) (reason : String) (t : UInt64) : row.Ages (row.deny reason t) where
  standing := rfl
  active earlier active := advance_active _ t earlier active
  denied _ := rfl

theorem widen_ages (row : Row) (rights : Rights) : row.Ages (row.widen rights) := ⟨rfl, fun _ => id, id⟩

/-! ## Drafts -/

def Draft.Ages (draft after : Draft) : Prop :=
  ∀ (i : Nat) (row : Row), draft.rows[i]? = some row → ∃ row', after.rows[i]? = some row' ∧ Row.Ages row row'

theorem Draft.Ages.of_rows {draft after : Draft} (same : after.rows = draft.rows) :
    draft.Ages after := by
  intro i row here
  exact ⟨row, by rw [same, here], .refl row⟩

theorem Draft.Ages.trans {draft middle after : Draft} (first : draft.Ages middle)
    (second : middle.Ages after) : draft.Ages after := by
  intro i row here
  obtain ⟨row', there, ages⟩ := first i row here
  obtain ⟨row'', last, ages'⟩ := second i row' there
  exact ⟨row'', last, ages.trans ages'⟩

theorem adjust_ages (draft : Draft) (i : Nat) (change : Row → Row)
    (ages : ∀ row : Row, row.Ages (change row)) : draft.Ages (draft.adjust i change) := by
  intro j row here
  refine ⟨_, by rw [Draft.adjust, List.getElem?_modify, here]; rfl, ?_⟩
  split
  · exact ages row
  · exact .refl row

theorem deny_channel_ages (draft : Draft) (principal : PrincipalId) (resource : Resource)
    (rights : Rights) : draft.Ages (draft.denyChannel principal resource rights).2 := by
  simp only [Draft.denyChannel]
  split
  case h_1 k i _ => exact adjust_ages draft i _ fun row => widen_ages row rights
  case h_2 =>
    intro i row here
    have inside := (List.getElem?_eq_some_iff.mp here).1
    exact ⟨row, by rw [List.getElem?_append_left inside, here], .refl row⟩

theorem denied_row_ages (draft : Draft) (principal : PrincipalId) (resource : Resource)
    (rights : Rights) : draft.Ages (draft.deniedRow principal resource rights).2 := by
  rw [Draft.deniedRow]
  split
  case h_1 => exact .of_rows rfl
  case h_2 => exact deny_channel_ages draft principal resource rights

/-- Every time at which a row was last active is one of these. -/
def Draft.Timed (times : UInt64 → Prop) (draft : Draft) : Prop :=
  ∀ row ∈ draft.rows, ∀ t, row.channel.lastUnix = some t → times t

theorem adjust_timed {times : UInt64 → Prop} {draft : Draft} (timed : draft.Timed times) (i : Nat)
    (change : Row → Row)
    (last : ∀ row t, (change row).channel.lastUnix = some t → times t ∨
      row.channel.lastUnix = some t) : (draft.adjust i change).Timed times := by
  intro row member t found
  obtain ⟨j, here⟩ := List.mem_iff_getElem?.mp member
  rw [Draft.adjust, List.getElem?_modify] at here
  obtain ⟨before, there, same⟩ := Option.map_eq_some_iff.mp here
  have among := timed before (List.mem_of_getElem? there)
  rw [← same] at found
  split at found
  · rcases last before t found with new | old
    · exact new
    · exact among t old
  · exact among t found

theorem denied_row_timed {times : UInt64 → Prop} {draft : Draft} (timed : draft.Timed times)
    (principal : PrincipalId) (resource : Resource) (rights : Rights) :
    (draft.deniedRow principal resource rights).2.Timed times := by
  simp only [Draft.deniedRow, Draft.denyChannel]
  split
  · exact timed
  · split
    case h_1 => exact adjust_timed timed _ _ fun row t found => .inr found
    case h_2 =>
      intro row member t found
      rcases List.mem_append.mp member with old | new
      · exact timed row old t found
      · rw [List.mem_singleton.mp new] at found
        cases found

/-! ## Rows that denials opened -/

/-- Every key that denials are found by is that of the row it points to, which has no grant. -/
def Draft.Indexed (draft : Draft) : Prop :=
  ∀ pair ∈ draft.byDeny, ∃ row, draft.rows[pair.2]? = some row ∧ row.channel.grant = none ∧
    denyKey row.channel.principal row.channel.resource = pair.1

theorem Draft.Indexed.ages {draft after : Draft} (indexed : draft.Indexed) (ages : draft.Ages after)
    (same : after.byDeny = draft.byDeny) : after.Indexed := by
  intro pair member
  rw [same] at member
  obtain ⟨row, here, none_, key⟩ := indexed pair member
  obtain ⟨row', there, aged⟩ := ages pair.2 row here
  have named : row'.channel.principal = row.channel.principal :=
    congrArg Standing.principal aged.standing
  have reached : row'.channel.resource = row.channel.resource :=
    congrArg Standing.resource aged.standing
  exact ⟨row', there, aged.grant.trans none_, by rw [named, reached, key]⟩

/-- The row that a denial is filed in takes it. -/
theorem denied_row_takes {draft : Draft} (indexed : draft.Indexed) (principal : PrincipalId)
    (resource : Resource) (rights : Rights) :
    (draft.deniedRow principal resource rights).2.Indexed ∧
      ∃ row, (draft.deniedRow principal resource rights).2.rows[
          (draft.deniedRow principal resource rights).1]? = some row ∧
        row.channel.Takes principal resource := by
  rw [Draft.deniedRow]
  split
  case h_1 i found =>
    obtain ⟨inside, folds, _⟩ := List.findIdx?_eq_some_iff_getElem.mp found
    rw [Row.folds, Bool.and_eq_true, Bool.and_eq_true] at folds
    refine ⟨indexed, _, List.getElem?_eq_getElem inside, .inl ⟨folds.1.1, ?_, folds.2⟩⟩
    exact of_decide_eq_true folds.1.2
  case h_2 =>
    simp only [Draft.denyChannel]
    split
    case h_1 k i found =>
      have ages : draft.Ages (draft.adjust i (Row.widen rights)) :=
        adjust_ages draft i _ fun row => widen_ages row rights
      obtain ⟨row, here, none_, key⟩ := indexed (k, i) (List.mem_of_find?_eq_some found)
      obtain ⟨row', there, aged⟩ := ages i row here
      have same : k = denyKey principal resource := by
        have picked := List.find?_some found
        exact of_decide_eq_true picked
      refine ⟨indexed.ages ages rfl, row', there, aged.takes (.inr ⟨none_, ?_⟩)⟩
      rw [key]
      exact same
    case h_2 =>
      have opened : (draft.rows ++ [(⟨refused principal resource rights, []⟩ : Row)])[
          draft.rows.length]? = some ⟨refused principal resource rights, []⟩ := by
        rw [List.getElem?_append_right (Nat.le_refl _), Nat.sub_self]
        rfl
      refine ⟨?_, _, opened, .inr ⟨rfl, rfl⟩⟩
      intro pair member
      rcases List.mem_append.mp member with earlier | last
      · obtain ⟨row, here, none_, key⟩ := indexed pair earlier
        have inside := (List.getElem?_eq_some_iff.mp here).1
        exact ⟨row, by rw [List.getElem?_append_left inside, here], none_, key⟩
      · rw [List.mem_singleton.mp last]
        exact ⟨_, opened, rfl, rfl⟩

/-! ## One entry -/

section Record

variable (byGrant : List (GrantId × Nat)) (draft : Draft) (e : AuditEntry)

theorem record_ages : draft.Ages (draft.record byGrant e) := by
  rw [Draft.record]
  cases e.event with
  | grant => exact .of_rows rfl
  | use grant principal resource rights =>
      dsimp only
      split
      case h_1 i _ => exact adjust_ages draft i _ fun row => use_ages row resource e.timeUnix
      case h_2 => exact .of_rows rfl
  | deny principal resource rights reason =>
      exact (denied_row_ages draft principal resource rights).trans
        (adjust_ages _ _ _ fun row => deny_ages row reason e.timeUnix)
  | revoke => exact .of_rows rfl

variable {draft} in
theorem record_timed {times : UInt64 → Prop} (timed : draft.Timed times) (dated : times e.timeUnix) :
    (draft.record byGrant e).Timed times := by
  rw [Draft.record]
  cases e.event with
  | grant => exact timed
  | use grant principal resource rights =>
      dsimp only
      split
      case h_1 i _ =>
        refine adjust_timed timed i _ fun row t found => ?_
        rw [(note_access_last _ resource).1] at found
        rcases advance_last row.channel e.timeUnix t found with new | old
        · exact .inl (new ▸ dated)
        · exact .inr old
      case h_2 => exact timed
  | deny principal resource rights reason =>
      refine adjust_timed (denied_row_timed timed principal resource rights) _ _ fun row t found => ?_
      rcases advance_last { row.channel with denials := row.channel.denials + 1
                                             lastReason := some reason } e.timeUnix t found with
        new | old
      · exact .inl (new ▸ dated)
      · exact .inr old
  | revoke => exact timed

variable {draft} in
theorem record_indexed (indexed : draft.Indexed) : (draft.record byGrant e).Indexed := by
  cases event : e.event with
  | deny principal resource rights reason =>
      have kept := (denied_row_takes indexed principal resource rights).1
      rw [Draft.record, event]
      exact kept.ages (adjust_ages _ _ _ fun row => deny_ages row reason e.timeUnix) rfl
  | grant | revoke =>
      rw [Draft.record, event]
      exact indexed
  | use =>
      refine indexed.ages (record_ages byGrant draft e) ?_
      rw [Draft.record, event]
      dsimp only
      split <;> rfl

variable {draft e} in
theorem record_denied (indexed : draft.Indexed) {principal : PrincipalId} {resource : Resource}
    {rights : Rights} {reason : String} (event : e.event = .deny principal resource rights reason) :
    ∃ row, (draft.record byGrant e).rows[(draft.deniedRow principal resource rights).1]? = some row ∧
      row.channel.Takes principal resource ∧ row.channel.ActiveSince e.timeUnix ∧
      row.channel.lastReason.isSome = true := by
  obtain ⟨_, row, here, takes⟩ := denied_row_takes indexed principal resource rights
  refine ⟨row.deny reason e.timeUnix, ?_, (deny_ages row reason e.timeUnix).takes takes,
    active_advance _ e.timeUnix, rfl⟩
  rw [Draft.record, event]
  dsimp only
  rw [Draft.adjust, List.getElem?_modify, here]
  simp only [if_true]
  rfl

variable {draft e} in
theorem record_use {grant : GrantId} {principal : PrincipalId} {resource : Resource}
    {rights : Rights} (event : e.event = .use grant principal resource rights) {i : Nat}
    (known : grantIndex byGrant grant = some i) {row : Row} (here : draft.rows[i]? = some row) :
    ∃ row', (draft.record byGrant e).rows[i]? = some row' ∧
      row'.channel.ActiveSince e.timeUnix := by
  refine ⟨row.use resource e.timeUnix, ?_, ?_⟩
  · rw [Draft.record, event]
    dsimp only
    rw [known]
    dsimp only
    rw [Draft.adjust, List.getElem?_modify, here]
    simp only [if_true]
    rfl
  · rw [Channel.ActiveSince, use_last]
    exact active_advance row.channel e.timeUnix

end Record

/-! ## A whole log -/

/-- What makes the row of a grant active. -/
def Touches (grants : List GrantInfo) (i : Nat) (g : GrantInfo) (e : AuditEntry) : Prop :=
  (∃ principal resource rights, e.event = .use g.id principal resource rights) ∨
    homeAmong grants e = some i

/-- The times of the grants and of the entries. -/
def DatedBy (entries : List AuditEntry) (grants : List GrantInfo) (t : UInt64) : Prop :=
  (∃ g ∈ grants, g.grantedUnix = t) ∨ ∃ e ∈ entries, e.timeUnix = t

/-- The rows of these grants after these entries. -/
structure Aged (entries : List AuditEntry) (grants : List GrantInfo) (draft : Draft) : Prop where
  seeds : Seeds grants draft
  indexed : draft.Indexed
  timed : draft.Timed (DatedBy entries grants)
  denied : ∀ e ∈ entries, ∀ principal resource rights reason,
    e.event = .deny principal resource rights reason → ∃ row ∈ draft.rows,
      row.channel.Takes principal resource ∧ row.channel.ActiveSince e.timeUnix ∧
        row.channel.lastReason.isSome = true
  granted : ∀ (i : Nat) (g : GrantInfo), grants[i]? = some g → ∃ row, draft.rows[i]? = some row ∧
    row.channel.ActiveSince g.grantedUnix ∧
      ∀ e ∈ entries, Touches grants i g e → row.channel.ActiveSince e.timeUnix

theorem aged_seed (grants : List GrantInfo) (window : Window) (buckets : Nat) :
    Aged [] grants (seedDraft grants window buckets) where
  seeds := seeds_seed grants window buckets
  indexed pair member := by cases member
  timed row member t found := by
    obtain ⟨g, among, same⟩ := List.mem_map.mp member
    rw [← same] at found
    exact .inl ⟨g, among, Option.some.inj found⟩
  denied e member := by cases member
  granted i g found := by
    refine ⟨⟨seeded g, []⟩, ?_, ⟨g.grantedUnix, rfl, UInt64.le_refl _⟩, fun e member => ?_⟩
    · rw [seedDraft, List.getElem?_map, found]
      rfl
    · cases member

theorem grant_index_at {grants : List GrantInfo} (unique : (grants.map GrantInfo.id).Nodup)
    {i : Nat} {g : GrantInfo} (found : grants[i]? = some g) :
    grantIndex (indexGrants grants) g.id = some i := by
  obtain ⟨inside, same⟩ := List.getElem?_eq_some_iff.mp found
  have first : (indexGrants grants).find? (fun pair => pair.1 = g.id) = some (g.id, i) := by
    rw [List.find?_eq_some_iff_getElem]
    refine ⟨decide_eq_true rfl, i, ?_, ?_, ?_⟩
    · rw [indexGrants, List.length_map, List.length_zipIdx]
      exact inside
    · simp only [indexGrants, List.getElem_map, List.getElem_zipIdx, Nat.zero_add, same]
    · intro j before
      simp only [indexGrants, List.getElem_map, List.getElem_zipIdx, Bool.not_eq_true',
        decide_eq_false_iff_not]
      intro ids
      have early : j < (grants.map GrantInfo.id).length := by
        rw [List.length_map]
        omega
      have one : (grants.map GrantInfo.id)[j]? = (grants.map GrantInfo.id)[i]? := by
        rw [List.getElem?_map, List.getElem?_map, List.getElem?_eq_getElem (before.trans inside),
          found, Option.map_some, Option.map_some, ids]
      have places := (List.getElem?_inj early unique).mp one
      omega
  rw [grantIndex, first]
  rfl

section Run

variable {entries : List AuditEntry} {grants : List GrantInfo} {draft : Draft} (window : Window)
  (buckets : Nat)

theorem aged_step (aged : Aged entries grants draft) (unique : (grants.map GrantInfo.id).Nodup)
    (e : AuditEntry) :
    Aged (entries ++ [e]) grants (draft.step window buckets (indexGrants grants) e) := by
  -- the timeline has no part in what becomes of the rows
  obtain ⟨dated, same, keys, dates⟩ : ∃ dated : Draft, dated.rows = draft.rows ∧
      dated.byDeny = draft.byDeny ∧
        draft.step window buckets (indexGrants grants) e = dated.record (indexGrants grants) e :=
    ⟨{ draft with timeline := tally window buckets draft.timeline e }, rfl, rfl, rfl⟩
  have begun : draft.Ages dated := .of_rows same
  have indexed : dated.Indexed := aged.indexed.ages begun keys
  have ages := begun.trans (record_ages (indexGrants grants) dated e)
  have seeds : Seeds grants dated := by
    refine aged.seeds.extends (.of_same ?_) (keys ▸ aged.seeds.behind)
    rw [Draft.standings, same]
    rfl
  refine ⟨(seeds_step aged.seeds window buckets (indexGrants grants) e).1, ?_, ?_, ?_, ?_⟩
  · rw [dates]
    exact record_indexed (indexGrants grants) e indexed
  · rw [dates]
    have timed : dated.Timed (DatedBy (entries ++ [e]) grants) := by
      intro row member t found
      rw [same] at member
      rcases aged.timed row member t found with granted | logged
      · exact .inl granted
      · obtain ⟨earlier, among, time⟩ := logged
        exact .inr ⟨earlier, List.mem_append_left _ among, time⟩
    refine record_timed (indexGrants grants) e timed (.inr ⟨e, ?_, rfl⟩)
    exact List.mem_append_right _ (List.mem_singleton_self e)
  · rw [dates]
    intro other member principal resource rights reason event
    rcases List.mem_append.mp member with earlier | last
    · obtain ⟨row, among, takes, active, denied⟩ :=
        aged.denied other earlier principal resource rights reason event
      obtain ⟨i, here⟩ := List.mem_iff_getElem?.mp among
      obtain ⟨row', there, aged'⟩ := ages i row here
      exact ⟨row', List.mem_of_getElem? there, aged'.takes takes, aged'.active _ active,
        aged'.denied denied⟩
    · rw [List.mem_singleton.mp last] at event ⊢
      obtain ⟨row, here, made⟩ := record_denied (indexGrants grants) indexed event
      exact ⟨row, List.mem_of_getElem? here, made⟩
  · rw [dates]
    intro i g found
    obtain ⟨row, here, active, touched⟩ := aged.granted i g found
    obtain ⟨row', there, aged'⟩ := ages i row here
    refine ⟨row', there, aged'.active _ active, fun other member touches => ?_⟩
    rcases List.mem_append.mp member with earlier | last
    · exact aged'.active _ (touched other earlier touches)
    · rw [List.mem_singleton.mp last] at touches ⊢
      rcases touches with ⟨principal, resource, rights, event⟩ | home
      · obtain ⟨row'', here'', made⟩ := record_use (indexGrants grants) event
          (grant_index_at unique found) (same ▸ here)
        rw [there] at here''
        cases here''
        exact made
      · cases event : e.event with
        | deny principal resource rights reason =>
            have first : grants.findIdx? (claims principal resource) = some i := by
              rw [homeAmong, event] at home
              exact home
            have filed := denied_index seeds principal resource
            rw [first] at filed
            have place : (dated.deniedRow principal resource rights).1 = i := by
              rw [Draft.deniedRow, filed]
            obtain ⟨row'', here'', _, made, _⟩ :=
              record_denied (indexGrants grants) indexed event
            rw [place, there] at here''
            cases here''
            exact made
        | grant | use | revoke =>
            rw [homeAmong, event] at home
            cases home

theorem aged_run (unique : (grants.map GrantInfo.id).Nodup) (entries : List AuditEntry) :
    Aged entries grants (collect entries grants window buckets) := by
  induction entries using List.reverseRecOn with
  | nil => exact aged_seed grants window buckets
  | append_singleton entries last ih =>
      rw [collect, List.foldl_append]
      exact aged_step window buckets ih unique last

end Run

end HorizonOs.Glass
