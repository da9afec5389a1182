import HorizonOs.Glass.Model

/-!
# What Glass shows

Behind the rows of the grants, which keep their standing, only blocked rows are added. A denial
counts in one row of its principal, whether that is a grant's or one of its own.
-/

namespace HorizonOs.Glass

open HorizonOs.Lib.Grouping HorizonOs.Lib.Text
open HorizonOs.Weave (AuditEntry Event GrantId GrantInfo PrincipalId Resource Rights)

set_option autoImplicit false

/-! ## Standing -/

/-- What the log does not change about a channel. -/
structure Standing where
  principal : PrincipalId
  resource : Resource
  kind : ChannelKind
  grant : Option GrantId
  status : ChannelStatus
  deriving DecidableEq

def Channel.standing (c : Channel) : Standing :=
  ⟨c.principal, c.resource, c.kind, c.grant, c.status⟩

/-- A channel that denials opened. -/
def Standing.Refused (standing : Standing) : Prop :=
  standing.grant = none ∧ standing.status = .blocked

def Draft.standings (draft : Draft) : List Standing :=
  draft.rows.map fun row => row.channel.standing

def Draft.denials (draft : Draft) : List UInt32 := draft.rows.map fun row => row.channel.denials

def Draft.principalAt (draft : Draft) (i : Nat) : Option PrincipalId :=
  (draft.rows[i]?).map fun row => row.channel.principal

/-- The rows of a draft keep their standing, and behind them come only refused ones. -/
def Extends (draft after : Draft) : Prop :=
  ∃ added : List Standing, (∀ standing ∈ added, standing.Refused) ∧
    after.standings = draft.standings ++ added

theorem Extends.refl (draft : Draft) : Extends draft draft :=
  ⟨[], nofun, (List.append_nil _).symm⟩

theorem Extends.of_same {draft after : Draft} (same : after.standings = draft.standings) :
    Extends draft after :=
  ⟨[], nofun, by rw [same, List.append_nil]⟩

theorem Extends.trans {first second third : Draft} (before : Extends first second)
    (behind : Extends second third) : Extends first third := by
  obtain ⟨added, refused, grown⟩ := before
  obtain ⟨more, refused', grown'⟩ := behind
  refine ⟨added ++ more, ?_, ?_⟩
  · intro standing member
    rcases List.mem_append.mp member with earlier | later
    · exact refused standing earlier
    · exact refused' standing later
  · rw [grown', grown, List.append_assoc]

theorem principal_at_standings (draft : Draft) (i : Nat) :
    draft.principalAt i = (draft.standings[i]?).map Standing.principal := by
  rw [Draft.principalAt, Draft.standings, List.getElem?_map, Option.map_map]
  rfl

theorem Extends.principal_at {draft after : Draft} (extends_ : Extends draft after) {i : Nat}
    {principal : PrincipalId} (found : draft.principalAt i = some principal) :
    after.principalAt i = some principal := by
  obtain ⟨added, _, grown⟩ := extends_
  rw [principal_at_standings] at found ⊢
  obtain ⟨standing, here, same⟩ := Option.map_eq_some_iff.mp found
  have inside := (List.getElem?_eq_some_iff.mp here).1
  rw [grown, List.getElem?_append_left inside, found]

/-! ## One step -/

theorem map_modify {α β : Type} (f : α → β) (change : α → α) (after : β → β)
    (moves : ∀ a, f (change a) = after (f a)) (items : List α) (i : Nat) :
    (items.modify i change).map f = (items.map f).modify i after := by
  induction items generalizing i with
  | nil => rw [List.modify_nil, List.map_nil, List.modify_nil]
  | cons a rest ih =>
      cases i with
      | zero =>
          rw [List.modify_zero_cons, List.map_cons, List.map_cons, List.modify_zero_cons, moves]
      | succ i =>
          rw [List.modify_succ_cons, List.map_cons, List.map_cons, List.modify_succ_cons, ih]

theorem map_modify_same {α β : Type} (f : α → β) (change : α → α)
    (same : ∀ a, f (change a) = f a) (items : List α) (i : Nat) :
    (items.modify i change).map f = items.map f := by
  rw [map_modify f change id same, List.modify_id]

theorem note_access_keeps (row : Row) (resource : Resource) :
    (row.noteAccess resource).channel.standing = row.channel.standing ∧
      (row.noteAccess resource).channel.denials = row.channel.denials := by
  simp only [Row.noteAccess]
  split_ifs
  · exact ⟨rfl, rfl⟩
  · exact ⟨rfl, rfl⟩
  · exact ⟨rfl, rfl⟩

section Adjust

variable (draft : Draft) (i : Nat) (change : Row → Row)

theorem standings_adjust (same : ∀ row, (change row).channel.standing = row.channel.standing) :
    (draft.adjust i change).standings = draft.standings :=
  map_modify_same _ change same draft.rows i

theorem denials_adjust (same : ∀ row, (change row).channel.denials = row.channel.denials) :
    (draft.adjust i change).denials = draft.denials :=
  map_modify_same _ change same draft.rows i

theorem denials_deny (reason : String) (t : UInt64) :
    (draft.adjust i (Row.deny reason t)).denials = draft.denials.modify i (· + 1) :=
  map_modify (fun row => row.channel.denials) (Row.deny reason t) (· + 1) (fun _ => rfl) draft.rows i

end Adjust

/-- Every key that denials are found by is that of the row it points to. -/
def Draft.Keyed (draft : Draft) : Prop :=
  ∀ pair ∈ draft.byDeny, ∃ standing : Standing, draft.standings[pair.2]? = some standing ∧
    '\x00' ∉ standing.principal.toList ∧ pair.1 = denyKey standing.principal standing.resource

theorem split_deny_key {principal : PrincipalId} (plain : '\x00' ∉ principal.toList)
    (resource : Resource) : splitOnce (· = '\x00') (denyKey principal resource).toList =
      some (principal.toList, resource.display.toList) := by
  have zero : ("\x00" : String).toList = ['\x00'] := by decide
  rw [denyKey, String.toList_append, String.toList_append, zero, List.append_assoc,
    List.singleton_append]
  apply split_once_append
  · intro d member
    exact decide_eq_false fun same => plain (same ▸ member)
  · rfl

theorem deny_key_principal {one other : PrincipalId} {resource resource' : Resource}
    (plain : '\x00' ∉ one.toList) (plain' : '\x00' ∉ other.toList)
    (same : denyKey one resource = denyKey other resource') : one = other := by
  have parts := split_deny_key plain resource
  rw [same, split_deny_key plain' resource'] at parts
  exact String.toList_injective (congrArg Prod.fst (Option.some.inj parts)).symm

theorem Draft.Keyed.extends {draft after : Draft} (keyed : draft.Keyed)
    (extends_ : Extends draft after) (same : after.byDeny = draft.byDeny) : after.Keyed := by
  intro pair member
  rw [same] at member
  obtain ⟨standing, here, plain, key⟩ := keyed pair member
  obtain ⟨added, _, grown⟩ := extends_
  have inside := (List.getElem?_eq_some_iff.mp here).1
  refine ⟨standing, ?_, plain, key⟩
  rw [grown, List.getElem?_append_left inside, here]

/-- Where a denial is filed: a row of its principal, one more at most than there were before, and
that without a denial. -/
structure Filed (draft : Draft) (principal : PrincipalId) (i : Nat) (after : Draft) : Prop where
  grows : Extends draft after
  denials : after.denials = draft.denials ∨ after.denials = draft.denials ++ [0]
  home : after.principalAt i = some principal
  keyed : after.Keyed

theorem filed_deny_channel {draft : Draft} {principal : PrincipalId} (keyed : draft.Keyed)
    (plain : '\x00' ∉ principal.toList) (resource : Resource) (rights : Rights) :
    Filed draft principal (draft.denyChannel principal resource rights).1
      (draft.denyChannel principal resource rights).2 := by
  simp only [Draft.denyChannel]
  split
  case h_1 k i found =>
    obtain ⟨standing, here, plain', key⟩ := keyed (k, i) (List.mem_of_find?_eq_some found)
    have same : k = denyKey principal resource := by
      have picked := List.find?_some found
      exact of_decide_eq_true picked
    have grows : Extends draft (draft.adjust i (Row.widen rights)) :=
      .of_same (standings_adjust draft i _ fun _ => rfl)
    refine ⟨grows, .inl (denials_adjust draft i _ fun _ => rfl), ?_, keyed.extends grows rfl⟩
    apply grows.principal_at
    rw [principal_at_standings, here, Option.map_some,
      deny_key_principal plain plain' (same.symm.trans key)]
  case h_2 =>
    have grown : ({ draft with
        rows := draft.rows ++ [⟨refused principal resource rights, []⟩]
        byDeny := draft.byDeny ++ [(denyKey principal resource, draft.rows.length)] } :
        Draft).standings = draft.standings ++ [(refused principal resource rights).standing] :=
      List.map_append
    have here : (draft.standings ++ [(refused principal resource rights).standing])[
        draft.rows.length]? = some (refused principal resource rights).standing := by
      rw [List.getElem?_append_right (by rw [Draft.standings, List.length_map])]
      rw [Draft.standings, List.length_map, Nat.sub_self]
      rfl
    refine ⟨⟨_, ?_, grown⟩, .inr List.map_append, ?_, ?_⟩
    · intro standing member
      rw [List.mem_singleton.mp member]
      exact ⟨rfl, rfl⟩
    · rw [principal_at_standings, grown, here]
      rfl
    · intro pair member
      rcases List.mem_append.mp member with earlier | last
      · obtain ⟨standing, inside, plain', key⟩ := keyed pair earlier
        refine ⟨standing, ?_, plain', key⟩
        rw [grown, List.getElem?_append_left (List.getElem?_eq_some_iff.mp inside).1, inside]
      · rw [List.mem_singleton.mp last, grown]
        exact ⟨_, here, plain, rfl⟩

theorem filed_denied_row {draft : Draft} {principal : PrincipalId} (keyed : draft.Keyed)
    (plain : '\x00' ∉ principal.toList) (resource : Resource) (rights : Rights) :
    Filed draft principal (draft.deniedRow principal resource rights).1
      (draft.deniedRow principal resource rights).2 := by
  rw [Draft.deniedRow]
  split
  case h_1 i found =>
    obtain ⟨inside, folds, _⟩ := List.findIdx?_eq_some_iff_getElem.mp found
    rw [Row.folds, Bool.and_eq_true, Bool.and_eq_true] at folds
    refine ⟨.refl draft, .inl rfl, ?_, keyed⟩
    rw [Draft.principalAt, List.getElem?_eq_getElem inside]
    exact congrArg some (of_decide_eq_true folds.1.2)
  case h_2 => exact filed_deny_channel keyed plain resource rights

/-- The principal that an entry says was denied something. -/
def deniedPrincipal : Event → Option PrincipalId
  | .deny principal _ _ _ => some principal
  | _ => none

theorem use_keeps (byGrant : List (GrantId × Nat)) (draft : Draft) (grant : GrantId)
    (resource : Resource) (t : UInt64) :
    let after := match grantIndex byGrant grant with
      | some i => draft.adjust i fun row =>
          Row.noteAccess { row with channel := row.channel.advance t } resource
      | none => draft
    after.standings = draft.standings ∧ after.denials = draft.denials ∧
      after.byDeny = draft.byDeny := by
  dsimp only
  split
  case h_1 i _ =>
    refine ⟨standings_adjust draft i _ fun row => ?_, denials_adjust draft i _ fun row => ?_, rfl⟩
    · exact (note_access_keeps _ resource).1
    · exact (note_access_keeps _ resource).2
  case h_2 => exact ⟨rfl, rfl, rfl⟩

section Step

variable (window : Window) (buckets : Nat) (byGrant : List (GrantId × Nat))

/-- An entry that denies nothing leaves the standing and the denials of every row. -/
theorem step_keeps (draft : Draft) (e : AuditEntry) (other : deniedPrincipal e.event = none) :
    (draft.step window buckets byGrant e).standings = draft.standings ∧
      (draft.step window buckets byGrant e).denials = draft.denials ∧
      (draft.step window buckets byGrant e).byDeny = draft.byDeny := by
  rw [Draft.step, Draft.record]
  cases event : e.event with
  | grant => exact ⟨rfl, rfl, rfl⟩
  | use grant principal resource rights => exact use_keeps byGrant _ grant resource e.timeUnix
  | deny =>
      rw [event] at other
      cases other
  | revoke => exact ⟨rfl, rfl, rfl⟩

/-- A denial is filed in one row of its principal and counted there. -/
theorem step_denies (draft : Draft) (e : AuditEntry) (principal : PrincipalId)
    (denied : deniedPrincipal e.event = some principal) (keyed : draft.Keyed)
    (plain : '\x00' ∉ principal.toList) :
    ∃ i after, Filed draft principal i after ∧
      (draft.step window buckets byGrant e).standings = after.standings ∧
      (draft.step window buckets byGrant e).denials = after.denials.modify i (· + 1) ∧
      (draft.step window buckets byGrant e).byDeny = after.byDeny := by
  rw [Draft.step, Draft.record]
  cases event : e.event with
  | deny named resource rights reason =>
      rw [event] at denied
      cases denied
      have filed := @filed_denied_row { draft with timeline := tally window buckets draft.timeline e }
        _ keyed plain resource rights
      refine ⟨_, _, ?_, standings_adjust _ _ _ fun _ => rfl, denials_deny _ _ _ _, rfl⟩
      -- the timeline has no part in where the denial goes
      exact ⟨filed.grows, filed.denials, filed.home, filed.keyed⟩
  | grant | use | revoke =>
      rw [event] at denied
      cases denied

theorem step_extends (draft : Draft) (e : AuditEntry) (keyed : draft.Keyed)
    (plain : ∀ principal, deniedPrincipal e.event = some principal → '\x00' ∉ principal.toList) :
    Extends draft (draft.step window buckets byGrant e) ∧
      (draft.step window buckets byGrant e).Keyed := by
  cases denied : deniedPrincipal e.event with
  | none =>
      obtain ⟨standings, _, same⟩ := step_keeps window buckets byGrant draft e denied
      exact ⟨.of_same standings, keyed.extends (.of_same standings) same⟩
  | some principal =>
      obtain ⟨i, after, filed, standings, _, same⟩ :=
        step_denies window buckets byGrant draft e principal denied keyed (plain principal denied)
      exact ⟨filed.grows.trans (.of_same standings), filed.keyed.extends (.of_same standings) same⟩

end Step

/-! ## A whole log -/

/-- Where an entry counts as a denial: in a row of the principal it names. -/
def HomeOf (draft : Draft) (e : AuditEntry) (home : Option Nat) : Prop :=
  match deniedPrincipal e.event with
  | some principal => ∃ i, home = some i ∧ draft.principalAt i = some principal
  | none => home = none

/-- Every denial has one row as its home, and every row has as many denials as it is home to. -/
structure Attributed (entries : List AuditEntry) (draft : Draft) (homes : List (Option Nat)) :
    Prop where
  homed : List.Forall₂ (HomeOf draft) entries homes
  counted : ∀ i row, draft.rows[i]? = some row →
    row.channel.denials = UInt32.ofNat (homes.count (some i))

theorem HomeOf.extends {draft after : Draft} (extends_ : Extends draft after) {e : AuditEntry}
    {home : Option Nat} (homed : HomeOf draft e home) : HomeOf after e home := by
  unfold HomeOf at homed ⊢
  cases denied : deniedPrincipal e.event with
  | none =>
      rw [denied] at homed
      exact homed
  | some principal =>
      rw [denied] at homed
      obtain ⟨i, here, found⟩ := homed
      exact ⟨i, here, extends_.principal_at found⟩

theorem length_denials (draft : Draft) : draft.denials.length = draft.rows.length :=
  List.length_map _

theorem counted_iff (draft : Draft) (homes : List (Option Nat)) :
    (∀ i row, draft.rows[i]? = some row →
        row.channel.denials = UInt32.ofNat (homes.count (some i))) ↔
      ∀ i count, draft.denials[i]? = some count → count = UInt32.ofNat (homes.count (some i)) := by
  constructor
  · intro counted i count found
    rw [Draft.denials, List.getElem?_map] at found
    obtain ⟨row, here, same⟩ := Option.map_eq_some_iff.mp found
    rw [← same]
    exact counted i row here
  · intro counted i row here
    apply counted i
    rw [Draft.denials, List.getElem?_map, here]
    rfl

theorem home_inside {draft : Draft} {e : AuditEntry} {i : Nat} (homed : HomeOf draft e (some i)) :
    i < draft.rows.length := by
  unfold HomeOf at homed
  cases denied : deniedPrincipal e.event with
  | none =>
      rw [denied] at homed
      cases homed
  | some principal =>
      rw [denied] at homed
      obtain ⟨j, same, found⟩ := homed
      cases same
      obtain ⟨row, here, _⟩ := Option.map_eq_some_iff.mp found
      exact (List.getElem?_eq_some_iff.mp here).1

theorem homes_inside {draft : Draft} {entries : List AuditEntry} {homes : List (Option Nat)}
    (homed : List.Forall₂ (HomeOf draft) entries homes) :
    ∀ i, some i ∈ homes → i < draft.rows.length := by
  induction homed with
  | nil => exact nofun
  | cons here _ ih =>
      intro i member
      rcases List.mem_cons.mp member with same | later
      · rw [← same] at here
        exact home_inside here
      · exact ih i later

theorem homed_append {entries : List AuditEntry} {draft after : Draft}
    {homes : List (Option Nat)} {e : AuditEntry} {home : Option Nat}
    (homed : List.Forall₂ (HomeOf draft) entries homes) (extends_ : Extends draft after)
    (last : HomeOf after e home) : List.Forall₂ (HomeOf after) (entries ++ [e]) (homes ++ [home]) :=
  List.rel_append (homed.imp fun _ _ => HomeOf.extends extends_) (.cons last .nil)

section Log

variable (window : Window) (buckets : Nat) (byGrant : List (GrantId × Nat))

theorem attributed_step {entries : List AuditEntry} {draft : Draft} {homes : List (Option Nat)}
    (attributed : Attributed entries draft homes) (keyed : draft.Keyed) (e : AuditEntry)
    (plain : ∀ principal, deniedPrincipal e.event = some principal → '\x00' ∉ principal.toList) :
    ∃ home, Attributed (entries ++ [e]) (draft.step window buckets byGrant e) (homes ++ [home]) := by
  obtain ⟨homed, counted⟩ := attributed
  have counts := (counted_iff draft homes).mp counted
  cases denied : deniedPrincipal e.event with
  | none =>
      obtain ⟨standings, denials, _⟩ := step_keeps window buckets byGrant draft e denied
      refine ⟨none, homed_append homed (.of_same standings) ?_, (counted_iff _ _).mpr ?_⟩
      · rw [HomeOf, denied]
      · intro i count found
        rw [denials] at found
        have other : ¬((none : Option Nat) == some i) = true := Bool.false_ne_true
        rw [List.count_append, List.count_singleton, if_neg other, Nat.add_zero]
        exact counts i count found
  | some principal =>
      obtain ⟨i, after, filed, standings, denials, _⟩ :=
        step_denies window buckets byGrant draft e principal denied keyed (plain principal denied)
      have grows := filed.grows.trans (.of_same standings)
      have home := (Extends.of_same standings).principal_at filed.home
      refine ⟨some i, homed_append homed grows ?_, (counted_iff _ _).mpr ?_⟩
      · rw [HomeOf, denied]
        exact ⟨i, rfl, home⟩
      · have before : ∀ j count, after.denials[j]? = some count →
            count = UInt32.ofNat (homes.count (some j)) := by
          intro j count found
          rcases filed.denials with same | opened
          · rw [same] at found
            exact counts j count found
          · rw [opened, List.getElem?_append] at found
            split at found
            · exact counts j count found
            · -- a row that was just opened is home to no denial before this one
              next outside =>
              have none_yet : homes.count (some j) = 0 := by
                apply List.count_eq_zero.mpr
                intro member
                have inside := homes_inside homed j member
                rw [length_denials] at outside
                exact outside inside
              rw [none_yet]
              have zero := List.mem_singleton.mp (List.mem_of_getElem? found)
              exact zero
        intro j count found
        rw [denials, List.getElem?_modify] at found
        obtain ⟨earlier, here, same⟩ := Option.map_eq_some_iff.mp found
        have count_before := before j earlier here
        rw [← same, List.count_append, List.count_singleton]
        by_cases at_home : i = j
        · rw [if_pos at_home, at_home, if_pos (beq_self_eq_true _), count_before,
            UInt32.ofNat_add]
          rfl
        · rw [if_neg at_home, if_neg (by simpa using at_home), Nat.add_zero]
          exact count_before

theorem attributed_run (rest entries : List AuditEntry) (draft : Draft)
    (homes : List (Option Nat)) (attributed : Attributed entries draft homes) (keyed : draft.Keyed)
    (plain : ∀ e ∈ rest, ∀ principal, deniedPrincipal e.event = some principal →
      '\x00' ∉ principal.toList) :
    Extends draft (rest.foldl (Draft.step window buckets byGrant) draft) ∧
      ∃ homes', Attributed (entries ++ rest)
        (rest.foldl (Draft.step window buckets byGrant) draft) homes' := by
  induction rest generalizing entries draft homes with
  | nil =>
      refine ⟨.refl draft, homes, ?_⟩
      rw [List.append_nil]
      exact attributed
  | cons e rest ih =>
      have first := plain e List.mem_cons_self
      obtain ⟨grows, keyed'⟩ := step_extends window buckets byGrant draft e keyed first
      obtain ⟨home, attributed'⟩ :=
        attributed_step window buckets byGrant attributed keyed e first
      obtain ⟨more, homes', ended⟩ := ih (entries ++ [e]) _ _ attributed' keyed'
        fun e member => plain e (List.mem_cons_of_mem _ member)
      rw [List.append_assoc] at ended
      exact ⟨grows.trans more, homes', ended⟩

end Log

end HorizonOs.Glass
