import HorizonOs.Weave.Ledger
import Mathlib.Data.List.Count

/-!
# What a grant entitles to

Authority over the events logged and the uses admitted since the store was
made. Two views of the grants are in play, the live table and the ledger of the
chain, and they may drift apart when log writes fail; both honour the history.
-/

namespace HorizonOs.Weave

open HorizonOs.Lib.ByteCodec HorizonOs.Lib.Runs
open HorizonOs.Lifestream

set_option autoImplicit false

/-- The id an event counts a use of. -/
def Event.uses : Event → Option GrantId
  | .use id _ _ _ => some id
  | _ => none

/-- The event that gave a grant its terms. -/
def Standing.grantEvent (standing : Standing) (id : GrantId) : Event :=
  .grant id standing.principal standing.resource standing.rights standing.expiresUnix
    standing.maxUses

/-- A history in which grants are given once, before anything is done with them,
and used no more often than they allow. -/
structure Orderly (events : List Event) (used : List GrantId) : Prop where
  once : ∀ left ∈ events, ∀ right ∈ events, ∀ id,
    left.grants = some id → right.grants = some id → left = right
  revoked : ∀ id, .revoke id ∈ events → ∃ event ∈ events, event.grants = some id
  spent : ∀ id ∈ used, ∃ event ∈ events, event.grants = some id
  bounded : ∀ id principal resource rights expiresUnix limit,
    .grant id principal resource rights expiresUnix (some limit) ∈ events →
      used.count id ≤ limit.toNat

/-- No grant stands better than the history has it. -/
structure Honours (events : List Event) (used : List GrantId) (standings : Standings) : Prop where
  granted : ∀ id standing, standings id = some standing → standing.grantEvent id ∈ events
  revoked : ∀ id standing, standings id = some standing → .revoke id ∈ events →
    standing.revoked = true
  counted : ∀ id standing limit, standings id = some standing → standing.maxUses = some limit →
    used.count id ≤ standing.uses.toNat ∧ standing.uses.toNat ≤ limit.toNat

/-- No limited grant has more uses counted than were admitted. -/
def Exact (used : List GrantId) (standings : Standings) : Prop :=
  ∀ id standing limit, standings id = some standing → standing.maxUses = some limit →
    standing.uses.toNat ≤ used.count id

/-- The event may be logged next: a new grant under an id of its own, a use or a
revocation of a grant of the live table, and a use only with uses left. -/
def Admissible (events : List Event) (live : Standings) : Event → Prop
  | .grant id _ _ _ _ _ => ∀ event ∈ events, event.grants ≠ some id
  | .use id _ _ _ => ∃ standing, live id = some standing ∧
      ∀ limit, standing.maxUses = some limit → standing.uses.toNat < limit.toNat
  | .revoke id => ∃ standing, live id = some standing
  | .deny _ _ _ _ => True

theorem uses_step (uses limit : UInt32) (room : uses.toNat < limit.toNat) :
    (uses + 1).toNat = uses.toNat + 1 := by
  have small := limit.toNat_lt
  rw [UInt32.toNat_add]
  apply Nat.mod_eq_of_lt
  rw [UInt32.toNat_one]
  omega

theorem Orderly.unused {events : List Event} {used : List GrantId} (orderly : Orderly events used)
    (id : GrantId) (fresh : ∀ event ∈ events, event.grants ≠ some id) : used.count id = 0 := by
  apply List.count_eq_zero_of_not_mem
  intro member
  obtain ⟨event, inside, granted⟩ := orderly.spent id member
  exact fresh event inside granted

section Record

variable {events : List Event} {used : List GrantId} {standings : Standings}

/-- Recording a use or a revocation of one grant, as a change to what stands. -/
theorem honours_update (honours : Honours events used standings) (id : GrantId)
    (change : Standing → Standing) (event : Event) (usedNow : List GrantId)
    (terms : ∀ standing, (change standing).grantEvent id = standing.grantEvent id)
    (others : ∀ other, other ≠ id → event ≠ .revoke other ∧ usedNow.count other = used.count other)
    (revoked : ∀ standing, standings id = some standing → .revoke id ∈ events ++ [event] →
      (change standing).revoked = true)
    (counted : ∀ standing limit, standings id = some standing →
      (change standing).maxUses = some limit →
      usedNow.count id ≤ (change standing).uses.toNat ∧
        (change standing).uses.toNat ≤ limit.toNat) :
    Honours (events ++ [event]) usedNow
      (Function.update standings id ((standings id).map change)) := by
  have at_id : ∀ standing, Function.update standings id ((standings id).map change) id =
      some standing → ∃ before, standings id = some before ∧ change before = standing := by
    intro standing found
    rw [Function.update_self] at found
    exact Option.map_eq_some_iff.mp found
  constructor
  · intro other standing found
    by_cases same : other = id
    · subst same
      obtain ⟨before, known, rfl⟩ := at_id standing found
      rw [terms]
      exact List.mem_append_left _ (honours.granted other before known)
    · rw [Function.update_of_ne same] at found
      exact List.mem_append_left _ (honours.granted other standing found)
  · intro other standing found gone
    by_cases same : other = id
    · subst same
      obtain ⟨before, known, rfl⟩ := at_id standing found
      exact revoked before known gone
    · rw [Function.update_of_ne same] at found
      rcases List.mem_append.mp gone with old | new
      · exact honours.revoked other standing found old
      · exact absurd (List.mem_singleton.mp new).symm (others other same).1
  · intro other standing limit found limited
    by_cases same : other = id
    · subst same
      obtain ⟨before, known, rfl⟩ := at_id standing found
      exact counted before limit known limited
    · rw [Function.update_of_ne same] at found
      rw [(others other same).2]
      exact honours.counted other standing limit found limited

/-- A view that honours the history honours it with one more event, if it leaves
room for the use. -/
theorem honours_record (honours : Honours events used standings) (orderly : Orderly events used)
    (event : Event)
    (fresh : ∀ id, event.grants = some id → ∀ earlier ∈ events, earlier.grants ≠ some id)
    (room : ∀ id standing limit, event.uses = some id → standings id = some standing →
      standing.maxUses = some limit → standing.uses.toNat < limit.toNat) :
    Honours (events ++ [event]) (event.uses.toList ++ used) (standings.record event) := by
  cases event with
  | grant id principal resource rights expiresUnix maxUses =>
      have unused := orderly.unused id (fresh id rfl)
      constructor
      · intro other standing found
        by_cases same : other = id
        · subst same
          rw [Standings.record, Function.update_self] at found
          cases found
          exact List.mem_append_right _ (List.mem_singleton_self _)
        · rw [Standings.record, Function.update_of_ne same] at found
          exact List.mem_append_left _ (honours.granted other standing found)
      · intro other standing found gone
        rcases List.mem_append.mp gone with old | new
        · by_cases same : other = id
          · subst same
            obtain ⟨event, inside, granted⟩ := orderly.revoked other old
            exact absurd granted (fresh other rfl event inside)
          · rw [Standings.record, Function.update_of_ne same] at found
            exact honours.revoked other standing found old
        · cases List.mem_singleton.mp new
      · intro other standing limit found limited
        change used.count other ≤ _ ∧ _
        by_cases same : other = id
        · subst same
          rw [Standings.record, Function.update_self] at found
          cases found
          rw [unused]
          exact ⟨Nat.zero_le _, Nat.zero_le _⟩
        · rw [Standings.record, Function.update_of_ne same] at found
          exact honours.counted other standing limit found limited
  | use id principal resource rights =>
      apply honours_update honours
      · intro standing
        rfl
      · intro other different
        exact ⟨by simp, List.count_cons_of_ne (Ne.symm different)⟩
      · intro standing found gone
        rcases List.mem_append.mp gone with old | new
        · exact honours.revoked id standing found old
        · cases List.mem_singleton.mp new
      · intro standing limit found limited
        have left := room id standing limit rfl found limited
        obtain ⟨lower, _⟩ := honours.counted id standing limit found limited
        have more : standing.used.uses.toNat = standing.uses.toNat + 1 :=
          uses_step standing.uses limit left
        have counts : (id :: used).count id = used.count id + 1 := List.count_cons_self
        change (id :: used).count id ≤ _ ∧ _
        rw [more, counts]
        omega
  | deny principal resource rights reason =>
      constructor
      · intro id standing found
        exact List.mem_append_left _ (honours.granted id standing found)
      · intro id standing found gone
        rcases List.mem_append.mp gone with old | new
        · exact honours.revoked id standing found old
        · cases List.mem_singleton.mp new
      · exact honours.counted
  | revoke id =>
      apply honours_update honours
      · intro standing
        rfl
      · intro other different
        exact ⟨fun same => different (Event.revoke.inj same).symm, rfl⟩
      · intro standing found gone
        rfl
      · intro standing limit found limited
        exact honours.counted id standing limit found limited

theorem exact_record (exact : Exact used standings) (event : Event) :
    Exact (event.uses.toList ++ used) (standings.record event) := by
  intro other standing limit found limited
  cases event with
  | grant id principal resource rights expiresUnix maxUses =>
      by_cases same : other = id
      · subst same
        rw [Standings.record, Function.update_self] at found
        cases found
        exact Nat.zero_le _
      · rw [Standings.record, Function.update_of_ne same] at found
        exact exact other standing limit found limited
  | use id principal resource rights =>
      by_cases same : other = id
      · subst same
        rw [Standings.record, Function.update_self] at found
        obtain ⟨before, known, rfl⟩ := Option.map_eq_some_iff.mp found
        have bound := exact other before limit known limited
        have step : (before.uses + 1).toNat ≤ before.uses.toNat + 1 := by
          rw [UInt32.toNat_add]
          exact Nat.mod_le _ _
        have counts : (other :: used).count other = used.count other + 1 := List.count_cons_self
        change (before.uses + 1).toNat ≤ (other :: used).count other
        omega
      · rw [Standings.record, Function.update_of_ne same] at found
        have bound := exact other standing limit found limited
        exact bound.trans List.count_le_count_cons
  | deny principal resource rights reason => exact exact other standing limit found limited
  | revoke id =>
      by_cases same : other = id
      · subst same
        rw [Standings.record, Function.update_self] at found
        obtain ⟨before, known, rfl⟩ := Option.map_eq_some_iff.mp found
        exact exact other before limit known limited
      · rw [Standings.record, Function.update_of_ne same] at found
        exact exact other standing limit found limited

end Record

/-- A history, and the two views of its grants. -/
structure Authority (events : List Event) (used : List GrantId) (live chain : Standings) :
    Prop where
  orderly : Orderly events used
  table : Honours events used live
  ledger : Honours events used chain
  exact : Exact used chain

section Steps

variable {events : List Event} {used : List GrantId} {live chain : Standings}

/-- Two views of one grant agree on its terms. -/
theorem Authority.same_terms (authority : Authority events used live chain) (id : GrantId)
    (left right : Standing) (inLive : live id = some left) (inChain : chain id = some right) :
    left.grantEvent id = right.grantEvent id :=
  authority.orderly.once _ (authority.table.granted id left inLive) _
    (authority.ledger.granted id right inChain) id rfl rfl

theorem orderly_logged (authority : Authority events used live chain) (event : Event)
    (admissible : Admissible events live event) :
    Orderly (events ++ [event]) (event.uses.toList ++ used) := by
  have orderly := authority.orderly
  have fresh : ∀ id, event.grants = some id → ∀ earlier ∈ events, earlier.grants ≠ some id := by
    intro id granted
    cases event with
    | grant other principal resource rights expiresUnix maxUses =>
        cases granted
        exact admissible
    | _ => contradiction
  have known : ∀ id standing, live id = some standing →
      ∃ earlier ∈ events ++ [event], earlier.grants = some id := by
    intro id standing found
    exact ⟨_, List.mem_append_left _ (authority.table.granted id standing found), rfl⟩
  have older : ∀ id, (∃ earlier ∈ events, earlier.grants = some id) →
      ∃ earlier ∈ events ++ [event], earlier.grants = some id := by
    rintro id ⟨earlier, inside, granted⟩
    exact ⟨earlier, List.mem_append_left _ inside, granted⟩
  constructor
  · intro left leftIn right rightIn id leftGrants rightGrants
    rcases List.mem_append.mp leftIn with leftOld | leftNew
    · rcases List.mem_append.mp rightIn with rightOld | rightNew
      · exact orderly.once left leftOld right rightOld id leftGrants rightGrants
      · rw [List.mem_singleton.mp rightNew] at rightGrants
        exact absurd leftGrants (fresh id rightGrants left leftOld)
    · rcases List.mem_append.mp rightIn with rightOld | rightNew
      · rw [List.mem_singleton.mp leftNew] at leftGrants
        exact absurd rightGrants (fresh id leftGrants right rightOld)
      · rw [List.mem_singleton.mp leftNew, List.mem_singleton.mp rightNew]
  · intro id gone
    rcases List.mem_append.mp gone with old | new
    · exact older id (orderly.revoked id old)
    · cases List.mem_singleton.mp new
      obtain ⟨standing, found⟩ := admissible
      exact known id standing found
  · intro id member
    rcases List.mem_append.mp member with new | old
    · cases event with
      | use other principal resource rights =>
          cases List.mem_singleton.mp new
          obtain ⟨standing, found, _⟩ := admissible
          exact known id standing found
      | _ => cases new
    · exact older id (orderly.spent id old)
  · intro id principal resource rights expiresUnix limit granted
    rcases List.mem_append.mp granted with old | new
    · have before := orderly.bounded id principal resource rights expiresUnix limit old
      cases event with
      | use other who what how =>
          by_cases same : id = other
          · subst same
            obtain ⟨standing, found, room⟩ := admissible
            have terms := orderly.once _ (authority.table.granted id standing found) _ old id rfl rfl
            have limited : standing.maxUses = some limit := by
              injection terms
            have left := room limit limited
            obtain ⟨lower, _⟩ := authority.table.counted id standing limit found limited
            change (id :: used).count id ≤ limit.toNat
            rw [List.count_cons_self]
            omega
          · change (other :: used).count id ≤ limit.toNat
            rw [List.count_cons_of_ne (Ne.symm same)]
            exact before
      | _ => exact before
    · cases List.mem_singleton.mp new
      change used.count id ≤ limit.toNat
      rw [orderly.unused id (fresh id rfl)]
      exact Nat.zero_le _

/-- An admissible event recorded in both views. -/
theorem authority_logged (authority : Authority events used live chain) (event : Event)
    (admissible : Admissible events live event) :
    Authority (events ++ [event]) (event.uses.toList ++ used) (live.record event)
      (chain.record event) := by
  have fresh : ∀ id, event.grants = some id → ∀ earlier ∈ events, earlier.grants ≠ some id := by
    intro id granted
    cases event with
    | grant other principal resource rights expiresUnix maxUses =>
        cases granted
        exact admissible
    | _ => contradiction
  have room : ∀ id standing limit, event.uses = some id → live id = some standing →
      standing.maxUses = some limit → standing.uses.toNat < limit.toNat := by
    intro id standing limit counts found limited
    cases event with
    | use other principal resource rights =>
        cases counts
        obtain ⟨known, same, left⟩ := admissible
        rw [found] at same
        cases same
        exact left limit limited
    | _ => contradiction
  refine ⟨orderly_logged authority event admissible, ?_, ?_, exact_record authority.exact event⟩
  · exact honours_record authority.table authority.orderly event fresh room
  · apply honours_record authority.ledger authority.orderly event fresh
    -- the chain counts no more uses than the live table, which has room
    intro id standing limit counts found limited
    cases event with
    | use other principal resource rights =>
        cases counts
        obtain ⟨known, inLive, left⟩ := admissible
        have terms := authority.same_terms id known standing inLive found
        have knownLimit : known.maxUses = some limit := by
          rw [← limited]
          injection terms
        have counted := authority.table.counted id known limit inLive knownLimit
        have exact := authority.exact id standing limit found limited
        have space := left limit knownLimit
        omega
    | _ => contradiction

/-- A use counted in the live table alone, or a revocation flagged there alone. -/
theorem authority_ahead (authority : Authority events used live chain) (later : Standings)
    (granted : ∀ id standing, later id = some standing →
      ∃ before, live id = some before ∧ standing.grantEvent id = before.grantEvent id ∧
        (before.revoked = true → standing.revoked = true) ∧
        ∀ limit, before.maxUses = some limit → before.uses.toNat ≤ standing.uses.toNat ∧
          standing.uses.toNat ≤ limit.toNat) :
    Authority events used later chain := by
  refine ⟨authority.orderly, ?_, authority.ledger, authority.exact⟩
  constructor
  · intro id standing found
    obtain ⟨before, known, terms, _⟩ := granted id standing found
    rw [terms]
    exact authority.table.granted id before known
  · intro id standing found gone
    obtain ⟨before, known, _, flags, _⟩ := granted id standing found
    exact flags (authority.table.revoked id before known gone)
  · intro id standing limit found limited
    obtain ⟨before, known, terms, _, counts⟩ := granted id standing found
    have same : before.maxUses = some limit := by
      rw [← limited]
      injection terms with _ _ _ _ _ equal
      exact equal.symm
    obtain ⟨lower, upper⟩ := counts limit same
    exact ⟨(authority.table.counted id before limit known same).1.trans lower, upper⟩

/-- The table is rebuilt from the chain. -/
theorem authority_reread (authority : Authority events used live chain) :
    Authority events used chain chain :=
  ⟨authority.orderly, authority.ledger, authority.ledger, authority.exact⟩

theorem honours_none (events : List Event) (used : List GrantId) :
    Honours events used fun _ => none := by
  constructor <;> intros <;> contradiction

/-- The chain cannot be found any more: no grant stands. -/
theorem authority_lost (authority : Authority events used live chain) :
    Authority events used (fun _ => none) fun _ => none := by
  refine ⟨authority.orderly, honours_none events used, honours_none events used, ?_⟩
  intro id standing limit found
  contradiction

end Steps

theorem authority_start : Authority [] [] (fun _ => none) fun _ => none := by
  refine ⟨?_, honours_none [] [], honours_none [] [], ?_⟩
  · constructor <;> simp
  · intro id standing limit found
    contradiction

end HorizonOs.Weave
