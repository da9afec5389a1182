import HorizonOs.Aura.Brokerage

/-!
# When the needs of a plan are met

A preview looks for a live grant that covers a need; the broker that is then
asked looks at the handle and at what is left of the grant's uses besides. Which
grant is chosen does not depend on how often it was used, so the needs of a
whole run are met in turn exactly when each has a choice, the handles are the
ones the broker knows, and every budget covers all the needs that draw on it.
-/

namespace HorizonOs.Aura

open HorizonOs.Lib.ByteCodec HorizonOs.Lib.Text HorizonOs.Lib.Runs
open HorizonOs.Lifestream HorizonOs.Weave

set_option autoImplicit false

/-! ## Writing a list of entries -/

/-- The session after the log took these entries one after the other, if it did. -/
def recorded : List (UInt64 × Event) → Session → Option Session
  | [], session => some session
  | (time, event) :: rest, session =>
      match log time event session with
      | .ok _ after => recorded rest after
      | .error _ _ => none

/-- The log does not look at the grants. -/
theorem log_with_grants (time : UInt64) (event : Event) (grants : GrantTable)
    (session : Session) : log time event (session.withGrants grants) =
      match log time event session with
      | .ok _ after => .ok () (after.withGrants grants)
      | .error error after => .error error (after.withGrants grants) := by
  simp only [log, Session.withGrants]
  cases append session.broker.ls session.broker.head session.broker.seq time event
    session.device with
  | error error device => rfl
  | ok id device =>
      cases pointed : setRef auditRef id device with
      | error error after => simp only [pointed]
      | ok done after =>
          simp only [pointed]
          rfl

theorem recorded_with_grants (entries : List (UInt64 × Event)) (grants : GrantTable)
    (session : Session) : recorded entries (session.withGrants grants) =
      (recorded entries session).map fun after => after.withGrants grants := by
  induction entries generalizing session with
  | nil => rfl
  | cons entry rest ih =>
      obtain ⟨time, event⟩ := entry
      simp only [recorded, log_with_grants]
      cases log time event session with
      | ok done after => exact ih after
      | error error after => rfl

/-- A log write leaves the table alone. -/
theorem log_table (time : UInt64) (event : Event) (session after : Session)
    (logged : log time event session = .ok () after) :
    after.broker.grants = session.broker.grants := by
  obtain ⟨device, _, ⟨id, outcome, _⟩ | ⟨_, ⟨error, outcome⟩, _⟩⟩ :=
    log_outcome session time event
  · rw [outcome] at logged
    cases logged
    rfl
  · rw [outcome] at logged
    contradiction

/-! ## Turns -/

/-- One need at its turn: the clock its capability is looked up at, and what the
broker's access draws. -/
structure Turn where
  need : Need
  clock : UInt64
  draw : Draw

def turnsFrom (draws : Nat → Draw) : Nat → List Need → List Turn
  | _, [] => []
  | drawn, need :: rest =>
      ⟨need, (draws drawn).now, draws (drawn + 1)⟩ :: turnsFrom draws (drawn + 2) rest

section Choices

variable (held : AList fun _ : GrantId => Capability) (session : Session)

/-- The capability `capability_for` chooses for a turn. -/
def choice (turn : Turn) : Option (GrantId × Capability) :=
  findCapability (session.broker.grantInfos turn.clock) held turn.need

def drawsOn (id : GrantId) (turn : Turn) : Bool :=
  (choice held session turn).any fun chosen => chosen.1 = id

/-- How many of the turns draw on a grant. -/
def demand (turns : List Turn) (id : GrantId) : Nat := turns.countP (drawsOn held session id)

/-- The entry a turn adds to the log when it is admitted. -/
def useOf (turn : Turn) : Option (UInt64 × Event) :=
  (choice held session turn).map fun chosen =>
    (turn.draw.logNow, .use chosen.1 PRINCIPAL turn.need.resource turn.need.rights)

/-- The broker knows the handle of what is chosen. -/
def Handled (turn : Turn) : Prop :=
  ∀ id cap, choice held session turn = some (id, cap) →
    ∃ state, session.broker.grants.lookup id = some state ∧ state.secret = some cap.secret

/-- There is a choice, and it has not expired by the time the broker is asked. -/
def Found (turn : Turn) : Prop :=
  ∃ id cap state, choice held session turn = some (id, cap) ∧
    session.broker.grants.lookup id = some state ∧
    expired turn.draw.now state.grant.expiresUnix = false

/-- Every grant that is drawn on has uses left for all the turns that do. -/
def WithinBudget (turns : List Turn) : Prop :=
  ∀ id state limit, session.broker.grants.lookup id = some state →
    state.grant.maxUses = some limit → 0 < demand held session turns id →
      state.uses.toNat + demand held session turns id ≤ limit.toNat

/-- The handles chosen are known, their grants have uses left, and the log takes the
uses. -/
structure Usable (turns : List Turn) : Prop where
  handled : ∀ turn ∈ turns, Handled held session turn
  within : WithinBudget held session turns
  written : ∃ after, recorded (turns.filterMap (useOf held session)) session = some after

structure Ready (turns : List Turn) : Prop where
  found : ∀ turn ∈ turns, Found held session turn
  usable : Usable held session turns

end Choices

/-! ## A choice does not depend on uses -/

def GrantState.unused (state : GrantState) : GrantState := { state with uses := 0 }

def GrantInfo.unused (info : GrantInfo) : GrantInfo := { info with uses := 0 }

/-- The grants of a table in its order, their use counts set aside. -/
def outline (grants : GrantTable) : List GrantState :=
  grants.entries.map fun item => GrantState.unused item.2

theorem kreplace_outline (id : GrantId) (state : GrantState)
    (entries : List (Sigma fun _ : GrantId => GrantState))
    (present : ∀ found, List.dlookup id entries = some found →
      GrantState.unused state = GrantState.unused found) :
    (List.kreplace id state entries).map (fun item => GrantState.unused item.2) =
      entries.map fun item => GrantState.unused item.2 := by
  induction entries with
  | nil => rfl
  | cons entry rest ih =>
      rw [List.kreplace] at ih ⊢
      by_cases same : id = entry.1
      · obtain ⟨key, found⟩ := entry
        dsimp only at same
        subst same
        rw [List.lookmap_cons_some _ rest (dif_pos rfl), List.map_cons, List.map_cons]
        rw [present found (List.dlookup_cons_eq rest id found)]
      · have passes := List.dlookup_cons_ne rest entry same
        rw [List.lookmap_cons_none _ rest (dif_neg same), List.map_cons, List.map_cons]
        rw [passes] at present
        rw [ih present]

/-- Counting a use leaves the outline as it was. -/
theorem used_outline (grants : GrantTable) (id : GrantId) :
    outline (grants.adjust id GrantState.used) = outline grants := by
  cases found : grants.lookup id with
  | none => simp only [GrantTable.adjust, found]
  | some state =>
      simp only [GrantTable.adjust, found]
      apply kreplace_outline
      intro other known
      have same : other = state := by
        have both := known.symm.trans (show List.dlookup id grants.entries = some state from found)
        exact Option.some.inj both
      rw [same]
      rfl

theorem unused_infos (broker : Broker) (now : UInt64) :
    (broker.grantInfos now).map GrantInfo.unused =
      ((outline broker.grants).map fun state => state.info now).mergeSort
        fun left right => left.grantedUnix ≤ right.grantedUnix := by
  have sorted := List.map_mergeSort (f := GrantInfo.unused)
    (r := fun left right : GrantInfo => decide (left.grantedUnix ≤ right.grantedUnix))
    (s := fun left right : GrantInfo => decide (left.grantedUnix ≤ right.grantedUnix))
    (l := broker.grants.entries.map fun item => item.2.info now) fun _ _ _ _ => rfl
  rw [Broker.grantInfos, sorted, outline, List.map_map, List.map_map]
  rfl

theorem find_capability_unused (infos : List GrantInfo)
    (held : AList fun _ : GrantId => Capability) (need : Need) :
    findCapability (infos.map GrantInfo.unused) held need = findCapability infos held need := by
  rw [findCapability, List.findSome?_map]
  rfl

/-- The sessions hold the same grants and handles, in the same order; uses apart. -/
structure SameButUses (session later : Session) : Prop where
  listed : outline later.broker.grants = outline session.broker.grants
  filed : ∀ id, (later.broker.grants.lookup id).map GrantState.unused =
    (session.broker.grants.lookup id).map GrantState.unused

theorem SameButUses.symm {session later : Session} (same : SameButUses session later) :
    SameButUses later session :=
  ⟨same.listed.symm, fun id => (same.filed id).symm⟩

theorem SameButUses.find {session later : Session} (same : SameButUses session later)
    (id : GrantId) (state : GrantState) (known : session.broker.grants.lookup id = some state) :
    ∃ other, later.broker.grants.lookup id = some other ∧ other.secret = state.secret ∧
      other.grant = state.grant := by
  have filed := same.filed id
  rw [known] at filed
  obtain ⟨other, found, alike⟩ := Option.map_eq_some_iff.mp filed
  have secret := congrArg GrantState.secret alike
  have grant := congrArg GrantState.grant alike
  exact ⟨other, found, secret, grant⟩

theorem counting_same (session later : Session) (id : GrantId)
    (counted : later.broker.grants = session.broker.grants.adjust id GrantState.used) :
    SameButUses session later := by
  constructor
  · rw [counted, used_outline]
  · intro other
    rw [counted, lookup_adjust]
    split
    case isTrue equal =>
      rw [equal, Option.map_map]
      rfl
    case isFalse => rfl

section Alike

variable (held : AList fun _ : GrantId => Capability) {session later : Session}

theorem choice_same (same : SameButUses session later) :
    choice held later = choice held session := by
  funext turn
  rw [choice, choice, ← find_capability_unused, unused_infos, same.listed, ← unused_infos,
    find_capability_unused]

theorem demand_same (same : SameButUses session later) :
    demand held later = demand held session := by
  have drawn : drawsOn held later = drawsOn held session := by
    funext id turn
    rw [drawsOn, drawsOn, choice_same held same]
  funext turns id
  rw [demand, demand, drawn]

theorem use_of_same (same : SameButUses session later) :
    useOf held later = useOf held session := by
  funext turn
  rw [useOf, useOf, choice_same held same]

theorem handled_same (same : SameButUses session later) (turn : Turn)
    (handled : Handled held session turn) : Handled held later turn := by
  intro id cap chosen
  rw [choice_same held same] at chosen
  obtain ⟨state, known, secret⟩ := handled id cap chosen
  obtain ⟨other, there, alike, _⟩ := same.find id state known
  refine ⟨other, there, ?_⟩
  rw [alike]
  exact secret

theorem found_same (same : SameButUses session later) (turn : Turn)
    (found : Found held session turn) : Found held later turn := by
  obtain ⟨id, cap, state, chosen, known, timely⟩ := found
  obtain ⟨other, there, _, alike⟩ := same.find id state known
  refine ⟨id, cap, other, ?_, there, ?_⟩
  · rw [choice_same held same]
    exact chosen
  · rw [alike]
    exact timely

end Alike

/-! ## One turn -/

section Turns

variable {held : AList fun _ : GrantId => Capability} {session : Session}

/-- What is known of the grant a turn chooses. -/
theorem choice_live (filed : Filed session.broker.grants) (wallet : WalletFiled held)
    (turn : Turn) (id : GrantId) (cap : Capability)
    (chosen : choice held session turn = some (id, cap)) :
    cap.grant = id ∧ ∃ state, session.broker.grants.lookup id = some state ∧
      state.grant.principal = PRINCIPAL ∧ state.status turn.clock = .active ∧
      state.grant.resource.covers turn.need.resource = true ∧
      state.grant.rights.contains turn.need.rights = true := by
  obtain ⟨info, listed, picked⟩ := List.exists_of_findSome?_eq_some chosen
  split at picked
  case isFalse => contradiction
  case isTrue live =>
    obtain ⟨inWallet, kept, pair⟩ := Option.map_eq_some_iff.mp picked
    cases pair
    obtain ⟨⟨key, state⟩, entry, rfl⟩ := List.mem_map.mp (List.mem_mergeSort.mp listed)
    have known : session.broker.grants.lookup key = some state := AList.mem_lookup_iff.mpr entry
    have own : state.grant.id = key := filed key state known
    refine ⟨wallet _ cap kept, state, ?_, live⟩
    change session.broker.grants.lookup state.grant.id = some state
    rw [own]
    exact known

/-- The broker refuses a chosen capability exactly when the handle is not its own, or
the grant has expired meanwhile or is used up. -/
theorem refusal_chosen (now : UInt64) (cap : Capability) (need : Need) (state : GrantState)
    (clock : UInt64) (known : session.broker.grants.lookup cap.grant = some state)
    (active : state.status clock = .active)
    (covers : state.grant.resource.covers need.resource = true)
    (contains : state.grant.rights.contains need.rights = true) :
    refusal session.broker now cap need.resource need.rights = none ↔
      state.secret = some cap.secret ∧ expired now state.grant.expiresUnix = false ∧
        spent state.uses state.grant.maxUses = false := by
  have standing : state.revoked = false := by
    cases flag : state.revoked with
    | false => rfl
    | true => simp [GrantState.status, flag] at active
  constructor
  · intro admitted
    obtain ⟨found, present, secret, _, timely, left, _⟩ := refusal_none _ _ _ _ _ admitted
    rw [known] at present
    cases present
    exact ⟨secret, timely, left⟩
  · rintro ⟨secret, timely, left⟩
    simp [refusal, known, secret, standing, timely, left, covers, contains]

/-- An access goes through when nothing is refused and the log takes the use. -/
theorem access_ok_iff (draw : Draw) (cap : Capability) (resource : Resource) (rights : Rights)
    (lease : Lease) (later : Session) :
    access draw cap resource rights session = .ok lease later ↔
      refusal session.broker draw.now cap resource rights = none ∧
        lease = ⟨cap.grant, resource, rights⟩ ∧
        ∃ after, log draw.logNow
            (.use cap.grant (principalOf session.broker cap.grant) resource rights) session =
              .ok () after ∧
          later = after.withGrants (session.broker.grants.adjust cap.grant GrantState.used) := by
  simp only [access, bind_apply, get_apply]
  cases refused : refusal session.broker draw.now cap resource rights with
  | some reason =>
      constructor
      · intro answered
        dsimp only at answered
        rw [bind_apply] at answered
        split at answered <;> contradiction
      · intro admitted
        cases admitted.1
  | none =>
      have counted : updateGrants (fun grants => grants.adjust cap.grant GrantState.used) session =
          .ok () (session.withGrants (session.broker.grants.adjust cap.grant GrantState.used)) := rfl
      dsimp only
      rw [bind_apply, counted]
      dsimp only
      rw [bind_apply, log_with_grants]
      cases logged : log draw.logNow
          (.use cap.grant (principalOf session.broker cap.grant) resource rights) session with
      | error error after => simp
      | ok done after =>
          simp only [pure_apply, EStateM.Result.ok.injEq, true_and]
          constructor
          · rintro ⟨rfl, rfl⟩
            exact ⟨rfl, after, rfl, rfl⟩
          · rintro ⟨rfl, other, rfl, rfl⟩
            exact ⟨rfl, rfl⟩

/-! ### Budgets -/

theorem unspent_iff (uses : UInt32) (limits : Option UInt32) : spent uses limits = false ↔
    ∀ limit, limits = some limit → uses.toNat + 1 ≤ limit.toNat := by
  cases limits with
  | none => simp [spent]
  | some limit =>
      simp only [spent, decide_eq_false_iff_not, UInt32.not_le, UInt32.lt_iff_toNat_lt,
        Option.some.injEq]
      constructor
      · rintro below other rfl
        exact below
      · intro below
        exact below limit rfl

theorem used_uses (uses limit : UInt32) (below : uses.toNat + 1 ≤ limit.toNat) :
    (uses + 1).toNat = uses.toNat + 1 := by
  have bound := limit.toNat_lt
  rw [UInt32.toNat_add]
  exact Nat.mod_eq_of_lt (by
    change uses.toNat + 1 < 2 ^ 32
    omega)

theorem demand_cons (turn : Turn) (rest : List Turn) (id other : GrantId) (cap : Capability)
    (chosen : choice held session turn = some (id, cap)) :
    demand held session (turn :: rest) other =
      demand held session rest other + if id = other then 1 else 0 := by
  rw [demand, demand, List.countP_cons, drawsOn, chosen]
  simp

/-- One admitted turn takes one use off the budget of the grant it chose. -/
theorem within_cons (later : Session) (turn : Turn) (rest : List Turn) (id : GrantId)
    (cap : Capability) (state : GrantState) (chosen : choice held session turn = some (id, cap))
    (known : session.broker.grants.lookup id = some state)
    (counted : later.broker.grants = session.broker.grants.adjust id GrantState.used) :
    WithinBudget held session (turn :: rest) ↔
      spent state.uses state.grant.maxUses = false ∧ WithinBudget held later rest := by
  have asked : demand held session (turn :: rest) id = demand held session rest id + 1 := by
    rw [demand_cons turn rest id id cap chosen, if_pos rfl]
  have unasked : ∀ other, id ≠ other →
      demand held session (turn :: rest) other = demand held session rest other := by
    intro other apart
    rw [demand_cons turn rest id other cap chosen, if_neg apart, Nat.add_zero]
  have demands := demand_same held (counting_same session later id counted)
  have moved : ∀ other, later.broker.grants.lookup other =
      if other = id then some state.used else session.broker.grants.lookup other := by
    intro other
    rw [counted, lookup_adjust, known]
    rfl
  constructor
  · intro budget
    have left : ∀ limit, state.grant.maxUses = some limit →
        state.uses.toNat + (demand held session rest id + 1) ≤ limit.toNat := by
      intro limit limited
      have covered := budget id state limit known limited
      rw [asked] at covered
      exact covered (Nat.succ_pos _)
    constructor
    · rw [unspent_iff]
      intro limit limited
      have covered := left limit limited
      omega
    · intro other found limit present limited positive
      rw [moved] at present
      rw [demands] at positive ⊢
      split at present
      case isTrue same =>
        cases present
        have covered := left limit limited
        have next := used_uses state.uses limit (by omega)
        rw [same]
        change (state.uses + 1).toNat + _ ≤ _
        omega
      case isFalse apart =>
        have covered := budget other found limit present limited
        rw [unasked other (Ne.symm apart)] at covered
        exact covered positive
  · rintro ⟨first, budget⟩ other found limit present limited positive
    by_cases same : id = other
    · rw [← same] at present positive ⊢
      rw [known] at present
      cases present
      have one := (unspent_iff _ _).mp first limit limited
      have next := used_uses state.uses limit one
      have covered := budget id state.used limit (by rw [moved, if_pos rfl]) limited
      rw [demands] at covered
      change 0 < demand held session rest id →
        (state.uses + 1).toNat + demand held session rest id ≤ limit.toNat at covered
      rw [asked]
      omega
    · rw [unasked other same] at positive ⊢
      have covered := budget other found limit
        (by rw [moved, if_neg (Ne.symm same), present]) limited
      rw [demands] at covered
      exact covered positive

/-! ### Taking turns -/

theorem use_of_chosen (filed : Filed session.broker.grants) (wallet : WalletFiled held)
    (turn : Turn) (id : GrantId) (cap : Capability)
    (chosen : choice held session turn = some (id, cap)) :
    useOf held session turn = some (turn.draw.logNow, .use cap.grant
      (principalOf session.broker cap.grant) turn.need.resource turn.need.rights) := by
  obtain ⟨same, state, known, principal, _⟩ := choice_live filed wallet turn id cap chosen
  have named : principalOf session.broker cap.grant = PRINCIPAL := by
    rw [principalOf, same, known]
    exact principal
  rw [useOf, chosen, named, same]
  rfl

/-- The log takes the first use and then the others. -/
theorem written_cons (filed : Filed session.broker.grants) (wallet : WalletFiled held)
    (turn : Turn) (rest : List Turn) (id : GrantId) (cap : Capability)
    (chosen : choice held session turn = some (id, cap)) :
    (∃ final, recorded ((turn :: rest).filterMap (useOf held session)) session = some final) ↔
      ∃ after, log turn.draw.logNow (.use cap.grant (principalOf session.broker cap.grant)
          turn.need.resource turn.need.rights) session = .ok () after ∧
        ∃ final, recorded (rest.filterMap (useOf held session)) after = some final := by
  rw [List.filterMap_cons_some (use_of_chosen filed wallet turn id cap chosen)]
  cases logged : log turn.draw.logNow (.use cap.grant (principalOf session.broker cap.grant)
      turn.need.resource turn.need.rights) session with
  | ok done after =>
      simp only [recorded, logged]
      constructor
      · intro written
        exact ⟨after, rfl, written⟩
      · rintro ⟨other, same, written⟩
        cases same
        exact written
  | error error after =>
      simp only [recorded, logged]
      constructor
      · rintro ⟨final, written⟩
        contradiction
      · rintro ⟨other, same, _⟩
        contradiction

/-- The turns are met exactly when the first is admitted and the others are met in the
session that leaves. -/
theorem ready_cons (filed : Filed session.broker.grants) (wallet : WalletFiled held)
    (turn : Turn) (rest : List Turn) :
    Ready held session (turn :: rest) ↔
      ∃ id cap lease later, choice held session turn = some (id, cap) ∧
        access turn.draw cap turn.need.resource turn.need.rights session = .ok lease later ∧
        Ready held later rest := by
  have admission : ∀ id cap, choice held session turn = some (id, cap) → ∃ state,
      session.broker.grants.lookup id = some state ∧ cap.grant = id ∧
      (refusal session.broker turn.draw.now cap turn.need.resource turn.need.rights = none ↔
        state.secret = some cap.secret ∧ expired turn.draw.now state.grant.expiresUnix = false ∧
          spent state.uses state.grant.maxUses = false) := by
    intro id cap chosen
    obtain ⟨same, state, known, _, active, covers, contains⟩ :=
      choice_live filed wallet turn id cap chosen
    refine ⟨state, known, same, ?_⟩
    apply refusal_chosen turn.draw.now cap turn.need state turn.clock _ active covers contains
    rw [same]
    exact known
  -- what the use changes in the session does not matter to the turns that follow
  have others : ∀ id cap state (after : Session), choice held session turn = some (id, cap) →
      session.broker.grants.lookup id = some state →
      (Usable held (after.withGrants (session.broker.grants.adjust id GrantState.used)) rest ∧
          spent state.uses state.grant.maxUses = false ↔
        (∀ next ∈ rest, Handled held session next) ∧ WithinBudget held session (turn :: rest) ∧
          ∃ final, recorded (rest.filterMap (useOf held session)) after = some final) := by
    intro id cap state after chosen known
    set later := after.withGrants (session.broker.grants.adjust id GrantState.used) with laterDef
    have counted : later.broker.grants = session.broker.grants.adjust id GrantState.used := rfl
    have same := counting_same session later id counted
    have within := within_cons later turn rest id cap state chosen known counted
    have written : (∃ final, recorded (rest.filterMap (useOf held later)) later = some final) ↔
        ∃ final, recorded (rest.filterMap (useOf held session)) after = some final := by
      rw [use_of_same held same, laterDef, recorded_with_grants]
      simp [Option.map_eq_some_iff]
    constructor
    · rintro ⟨usable, unspent⟩
      refine ⟨?_, within.mpr ⟨unspent, usable.within⟩, written.mp usable.written⟩
      intro next member
      exact handled_same held same.symm next (usable.handled next member)
    · rintro ⟨handled, budget, logged⟩
      obtain ⟨unspent, left⟩ := within.mp budget
      refine ⟨⟨?_, left, written.mpr logged⟩, unspent⟩
      intro next member
      exact handled_same held same next (handled next member)
  constructor
  · rintro ⟨found, ⟨handled, within, written⟩⟩
    obtain ⟨id, cap, state, chosen, known, timely⟩ := found turn List.mem_cons_self
    obtain ⟨_, present, secret⟩ := handled turn List.mem_cons_self id cap chosen
    rw [known] at present
    cases present
    obtain ⟨other, knownToo, same, admits⟩ := admission id cap chosen
    rw [known] at knownToo
    cases knownToo
    obtain ⟨after, logged, rested⟩ := (written_cons filed wallet turn rest id cap chosen).mp written
    obtain ⟨usable, unspent⟩ := (others id cap state after chosen known).mpr
      ⟨fun next member => handled next (List.mem_cons_of_mem _ member), within, rested⟩
    refine ⟨id, cap, ⟨cap.grant, turn.need.resource, turn.need.rights⟩,
      after.withGrants (session.broker.grants.adjust id GrantState.used), chosen, ?_, ?_, usable⟩
    · apply (access_ok_iff _ _ _ _ _ _).mpr
      refine ⟨admits.mpr ⟨secret, timely, unspent⟩, rfl, after, logged, ?_⟩
      rw [same]
    · intro next member
      exact found_same held (counting_same session _ id rfl) next
        (found next (List.mem_cons_of_mem _ member))
  · rintro ⟨id, cap, lease, later, chosen, answered, ready⟩
    obtain ⟨state, known, same, admits⟩ := admission id cap chosen
    obtain ⟨admitted, _, after, logged, rfl⟩ := (access_ok_iff _ _ _ _ _ _).mp answered
    obtain ⟨secret, timely, unspent⟩ := admits.mp admitted
    have found := ready.found
    have usable := ready.usable
    rw [same] at found usable
    obtain ⟨handled, within, rested⟩ :=
      (others id cap state after chosen known).mp ⟨usable, unspent⟩
    constructor
    · intro next member
      rcases List.mem_cons.mp member with rfl | inRest
      · exact ⟨id, cap, state, chosen, known, timely⟩
      · exact found_same held (counting_same session _ id rfl).symm next (found next inRest)
    · refine ⟨?_, within,
        (written_cons filed wallet turn rest id cap chosen).mpr ⟨after, logged, rested⟩⟩
      intro next member
      rcases List.mem_cons.mp member with rfl | inRest
      · intro other handle picked
        rw [chosen] at picked
        cases picked
        exact ⟨state, known, secret⟩
      · exact handled next inRest

end Turns

end HorizonOs.Aura
