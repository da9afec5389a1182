import HorizonOs.Constellation.SyncLaws

/-!
# What a sync does to refs

The ancestry search answers exactly whether one generation is an ancestor of
another, and each ref of the source meets one of four fates: it is set, found
the same, moved forward, or left where it is.
-/

namespace HorizonOs.Constellation

open HorizonOs.Lib.ByteCodec HorizonOs.Lib.Runs HorizonOs.Lib.Programs HorizonOs.Lib.Search
open HorizonOs.Lifestream

set_option autoImplicit false

/-! ## Ancestry -/

theorem parents_of_absent {ls : Lifestream} {device : Device} {id : ObjectId}
    (absent : device.has id = false) : ls.parentsOf device id = [] := by
  unfold parentsOf
  split
  case h_1 g held =>
    rw [contents_present held] at absent
    cases absent
  case h_2 => rfl

/-- A peer that answers for the parents of an id answers what its disk holds,
and has opened the object if it is there. -/
theorem parents_answer_ok (ls : Lifestream) (device : Device) (id : ObjectId)
    (reply : Option (List ObjectId))
    (answer : parentsAnswer (ls.get device id) = .ok reply) :
    reply.getD [] = ls.parentsOf device id ∧
      (device.has id = true → ∃ object, ls.contents device id = some object) := by
  cases got : ls.get device id with
  | ok object =>
      have held := (get_ok ls device id object got).1
      rw [got] at answer
      apply And.intro
      · cases object <;> cases answer <;> simp only [parentsOf, held, Option.getD_some,
          Option.getD_none]
      · exact fun _ => ⟨object, held⟩
  | error error =>
      rw [got] at answer
      cases error with
      | notFound text =>
          cases answer
          have absent := get_not_found ls device id text got
          apply And.intro
          · rw [parents_of_absent absent]
            rfl
          · intro present
            rw [present] at absent
            cases absent
      | io message => cases answer
      | crypto => cases answer
      | corrupt message => cases answer
      | store message => cases answer

section Ancestry

variable {σ : Type} {terms : Terms SyncCall SyncReply Error σ} {ls : Lifestream}
  {view : σ → Device × Device} {allowed : SyncCall → Device × Device → Prop}

/-- Every generation of this history can be read, or is not there. -/
def HistoryReads (ls : Lifestream) (device : Device) (id : ObjectId) : Prop :=
  ∀ older, Ancestor ls device older id → ∃ reply, parentsAnswer (ls.get device older) = .ok reply

theorem HistoryReads.opens {device : Device} {id older : ObjectId}
    (reads : HistoryReads ls device id) (path : Ancestor ls device older id)
    (present : device.has older = true) : ∃ object, ls.contents device older = some object := by
  obtain ⟨reply, answer⟩ := reads older path
  exact (parents_answer_ok ls device older reply answer).2 present

/-- A history that was walked to its end read well throughout. -/
theorem safe_is_ancestor (serves : Reads terms ls view allowed) (old new : ObjectId) (state : σ)
    (unharmed : ∀ id, allowed (.destination, .parents id) (view state)) :
    (isAncestor old new).Safe terms
      (fun found later => view later = view state ∧
        (found = true ↔ Ancestor ls (view state).2 old new) ∧
        (found = false → HistoryReads ls (view state).2 new)) state := by
  unfold isAncestor
  apply Program.Safe.bind
  apply safe_explore (fun id => id = old) ancestryVisit idCount ids_few
    (fun seen stack later => view later = view state ∧
      Frontier (ls.parentsOf (view state).2) [new] seen stack ∧ old ∉ seen ∧
      ∀ id ∈ seen, ∃ reply, parentsAnswer (ls.get (view state).2 id) = .ok reply)
  case ends =>
    rintro seen later last ⟨here, frontier, unseen, read⟩ moved last' moved'
    have met : ∀ id, Ancestor ls (view state).2 id new → id ∈ seen :=
      fun id path => (frontier.finish id).mpr ⟨new, List.mem_cons_self, path⟩
    refine ⟨?_, ⟨?_, ?_⟩, ?_⟩
    · rw [serves.quiet last last' moved', serves.quiet later last moved, here]
    · exact fun absurd' => Bool.noConfusion absurd'
    · exact fun path => absurd (met old path) unseen
    · exact fun _ id path => read id (met id path)
  case stops =>
    rintro seen node rest later last ⟨here, frontier, _⟩ stopped moved last' moved'
    obtain ⟨root, member, path⟩ := frontier.stacked node List.mem_cons_self
    rw [List.mem_singleton.mp member, of_decide_eq_true stopped] at path
    refine ⟨?_, ⟨fun _ => path, fun _ => rfl⟩, fun absurd' => Bool.noConfusion absurd'⟩
    rw [serves.quiet last last' moved', serves.quiet later last moved, here]
  case passes =>
    exact fun seen node rest later ⟨here, frontier, unseen⟩ old => ⟨here, frontier.pass old, unseen⟩
  case visits =>
    rintro seen node rest later ⟨here, frontier, unseen, read⟩ goes new'
    unfold ancestryVisit askDestination
    apply serves.ask .destination (.parents node) rfl
    case unharmed =>
      rw [here]
      exact unharmed node
    case leads =>
      intro reply after answer same last moved
      obtain ⟨performed, _⟩ := pair_destination_ok answer
      rw [localTransport, here] at performed
      have answered := reading_ok performed
      have parents := (parents_answer_ok ls _ node reply answered).1
      refine ⟨(serves.quiet after last moved).trans (same.trans here), ?_, ?_, ?_⟩
      · rw [parents]
        apply frontier.visit
        · exact fun next member => member
        · exact fun next leads => .inr leads
      · intro member
        rcases List.mem_cons.mp member with rfl | before
        · simp at goes
        · exact unseen before
      · intro id member
        rcases List.mem_cons.mp member with rfl | before
        · exact ⟨reply, answered⟩
        · exact read id before
  case distinct => exact List.nodup_nil
  case enough =>
    rw [List.length_nil]
    omega
  case holds => exact ⟨rfl, Frontier.start _ [new], List.not_mem_nil, by simp⟩

end Ancestry

/-! ## Writing a ref -/

/-- Nothing of the disk has changed but its refs and the outlook on coming calls. -/
structure OnlyRefs (before after : Device) : Prop where
  objects : after.objects = before.objects
  unreadable : after.unreadable = before.unreadable
  unreadableRef : after.unreadableRef = before.unreadableRef
  written : after.written = before.written

theorem OnlyRefs.refl (device : Device) : OnlyRefs device device :=
  ⟨rfl, rfl, rfl, rfl⟩

theorem OnlyRefs.trans {first second third : Device} (near : OnlyRefs first second)
    (far : OnlyRefs second third) : OnlyRefs first third where
  objects := far.objects.trans near.objects
  unreadable := far.unreadable.trans near.unreadable
  unreadableRef := far.unreadableRef.trans near.unreadableRef
  written := far.written.trans near.written

theorem OnlyRefs.get_ref {before after : Device} (only : OnlyRefs before after) {name : String}
    (same : after.refs.lookup name = before.refs.lookup name) :
    after.getRef name = before.getRef name :=
  get_ref_congr same only.unreadableRef

theorem OnlyRefs.parents_of {before after : Device} (only : OnlyRefs before after)
    (ls : Lifestream) : ls.parentsOf after = ls.parentsOf before := by
  funext id
  simp only [parentsOf, contents, only.objects]

theorem OnlyRefs.get {before after : Device} (only : OnlyRefs before after) (ls : Lifestream)
    (id : ObjectId) : ls.get after id = ls.get before id := by
  simp only [Lifestream.get, ObjectStore.get, Device.readRecord, only.objects, only.unreadable]

theorem OnlyRefs.history_reads {before after : Device} (only : OnlyRefs before after)
    (ls : Lifestream) {id : ObjectId} (reads : HistoryReads ls after id) :
    HistoryReads ls before id := by
  intro older path
  rw [Ancestor, ← only.parents_of ls] at path
  rw [← only.get ls older]
  exact reads older path

/-- What becomes of a ref that is written. -/
inductive RefWritten (name : String) (id : ObjectId) (device : Device) :
    EStateM.Result Lifestream.Error Device Unit → Prop where
  | written (after : Device) (only : OnlyRefs device after)
      (text : after.refs = device.refs.insert name (refText id)) :
      RefWritten name id device (.ok () after)
  | refused (error : Lifestream.Error) (after : Device) (only : OnlyRefs device after)
      (text : after.refs = device.refs) : RefWritten name id device (.error error after)
  | torn (error : Lifestream.Error) (after : Device) (only : OnlyRefs device after)
      (content : Bytes) (blank : parseRef content = .ok none)
      (text : after.refs = device.refs.insert name content)
      (tears : ∃ fault rest, device.faults = some fault :: rest ∧ fault.landed ≠ none) :
      RefWritten name id device (.error error after)

theorem set_ref_result (name : String) (id : ObjectId) (device : Device) :
    RefWritten name id device (setRef name id device) := by
  cases ahead : device.faults with
  | nil =>
      have outcome : setRef name id device =
          .ok () { device with refs := device.refs.insert name (refText id) } := by
        simp only [setRef, ahead]
      rw [outcome]
      exact .written _ ⟨rfl, rfl, rfl, rfl⟩ rfl
  | cons coming rest =>
      cases coming with
      | none =>
          have outcome : setRef name id device =
              .ok () { device with refs := device.refs.insert name (refText id), faults := rest } := by
            simp only [setRef, ahead]
          rw [outcome]
          exact .written _ ⟨rfl, rfl, rfl, rfl⟩ rfl
      | some fault =>
          cases landed : fault.landed with
          | none =>
              have outcome : setRef name id device =
                  .error (.io fault.message) { device with faults := rest } := by
                simp only [setRef, ahead, landed]
              rw [outcome]
              exact .refused _ _ ⟨rfl, rfl, rfl, rfl⟩ rfl
          | some count =>
              have outcome : setRef name id device = .error (.io fault.message) { device with
                  refs := device.refs.insert name ((refText id).dropLast.take count)
                  faults := rest } := by
                simp only [setRef, ahead, landed]
              rw [outcome]
              exact .torn _ _ ⟨rfl, rfl, rfl, rfl⟩ _ (parse_torn_ref id count) rfl
                ⟨fault, rest, ahead, by rw [landed]; exact Option.some_ne_none count⟩

/-! ## The fate of a ref -/

/-- Which fate a ref of the source meets, from where it is on the destination. -/
def Meets (ls : Lifestream) (start : Device) (name : String) (id : ObjectId) : Fate → Prop
  | .set => start.getRef name = .ok none
  | .same => start.getRef name = .ok (some id)
  | .advanced => ∃ old, start.getRef name = .ok (some old) ∧ old ≠ id ∧ Ancestor ls start old id
  | .conflicted => ∃ old, start.getRef name = .ok (some old) ∧ old ≠ id ∧
      ¬Ancestor ls start old id ∧ HistoryReads ls start id

def Fate.moves : Fate → Bool
  | .set => true
  | .same => false
  | .advanced => true
  | .conflicted => false

/-- Every ref has at most one fate. -/
theorem meets_once {ls : Lifestream} {start : Device} {name : String} {id : ObjectId}
    {left right : Fate} (here : Meets ls start name id left) (there : Meets ls start name id right) :
    left = right := by
  cases left <;> cases right <;> simp only [Meets] at here there <;> grind

/-- What has become of the refs dealt with so far. -/
structure RefsMoved (ls : Lifestream) (start : Device) (behind : List (String × ObjectId))
    (report : SyncReport) (after : Device) : Prop where
  only : OnlyRefs start after
  met : ∀ name id, (name, id) ∈ behind → ∃ fate, Meets ls start name id fate
  landed : ∀ name id fate, (name, id) ∈ behind → Meets ls start name id fate →
    after.refs.lookup name = if fate.moves then some (refText id) else start.refs.lookup name
  others : ∀ name, name ∉ behind.map Prod.fst → after.refs.lookup name = start.refs.lookup name
  noted : ∀ name fate, fate ≠ .same →
    (name ∈ report.named fate ↔ ∃ id, (name, id) ∈ behind ∧ Meets ls start name id fate)

theorem RefsMoved.start (ls : Lifestream) (start : Device) (report : SyncReport)
    (blank : ∀ fate, report.named fate = []) : RefsMoved ls start [] report start where
  only := OnlyRefs.refl start
  met _ _ member := absurd member List.not_mem_nil
  landed _ _ _ member := absurd member List.not_mem_nil
  others _ _ := rfl
  noted name fate _ := by simp [blank]

/-- One more ref meets its fate. -/
theorem RefsMoved.extend {ls : Lifestream} {start during after : Device}
    {behind : List (String × ObjectId)} {report : SyncReport} {name : String} {id : ObjectId}
    {fate : Fate} (moved : RefsMoved ls start behind report during)
    (fresh : name ∉ behind.map Prod.fst) (meets : Meets ls start name id fate)
    (only : OnlyRefs during after)
    (text : after.refs = if fate.moves then during.refs.insert name (refText id) else during.refs) :
    RefsMoved ls start (behind ++ [(name, id)]) (report.note name fate) after := by
  have elsewhere : ∀ other, other ≠ name → after.refs.lookup other = during.refs.lookup other := by
    intro other different
    rw [text]
    split
    · exact AList.lookup_insert_ne different
    · rfl
  have here : after.refs.lookup name =
      if fate.moves then some (refText id) else start.refs.lookup name := by
    rw [text]
    split
    · exact AList.lookup_insert _
    · exact moved.others name fresh
  constructor
  case only => exact moved.only.trans only
  case met =>
    intro other target member
    rcases List.mem_append.mp member with old | new
    · exact moved.met other target old
    · cases List.mem_singleton.mp new
      exact ⟨fate, meets⟩
  case landed =>
    intro other target found member met
    rcases List.mem_append.mp member with old | new
    · rw [elsewhere other]
      · exact moved.landed other target found old met
      · rintro rfl
        exact fresh (List.mem_map_of_mem old)
    · cases List.mem_singleton.mp new
      rw [meets_once met meets]
      exact here
  case others =>
    intro other absent
    rw [List.map_append, List.mem_append, not_or] at absent
    rw [elsewhere other, moved.others other absent.1]
    rintro rfl
    exact absent.2 List.mem_cons_self
  case noted =>
    intro other found told
    rw [named_note report name fate found told, List.mem_append, moved.noted other found told]
    constructor
    · rintro (⟨target, member, met⟩ | new)
      · exact ⟨target, List.mem_append_left _ member, met⟩
      · split at new
        · rename_i same
          rw [List.mem_singleton.mp new, same]
          exact ⟨id, List.mem_append_right _ List.mem_cons_self, meets⟩
        · cases new
    · rintro ⟨target, member, met⟩
      rcases List.mem_append.mp member with old | new
      · exact .inl ⟨target, old, met⟩
      · cases List.mem_singleton.mp new
        rw [meets_once met meets, if_pos rfl]
        exact .inr List.mem_cons_self

theorem get_ref_of_text {device : Device} {name : String} {id : ObjectId}
    (text : device.refs.lookup name = some (refText id)) (readable : device.unreadableRef name = none) :
    device.getRef name = .ok (some id) := by
  simp only [Device.getRef, text, readable]
  exact parse_ref_text id

/-- Where a ref is once it has met its fate. -/
theorem RefsMoved.get_ref {ls : Lifestream} {start after : Device}
    {behind : List (String × ObjectId)} {report : SyncReport} {name : String} {id : ObjectId}
    {fate : Fate} (moved : RefsMoved ls start behind report after)
    (readable : ∀ name, start.unreadableRef name = none) (member : (name, id) ∈ behind)
    (meets : Meets ls start name id fate) :
    after.getRef name = if fate.moves then .ok (some id) else start.getRef name := by
  have landed := moved.landed name id fate member meets
  split
  case isTrue moves =>
    rw [if_pos moves] at landed
    apply get_ref_of_text landed
    rw [moved.only.unreadableRef]
    exact readable name
  case isFalse stands =>
    rw [if_neg stands] at landed
    exact moved.only.get_ref landed

/-- Where a failure may leave the refs: each as it was, or where the source has
it, or in a file cut off on the way there. -/
structure Halfway (ls : Lifestream) (source start after : Device) : Prop where
  only : OnlyRefs start after
  refs : ∀ name, after.refs.lookup name = start.refs.lookup name ∨
    ∃ id fate, source.getRef name = .ok (some id) ∧ Meets ls start name id fate ∧
      fate.moves = true ∧ (after.refs.lookup name = some (refText id) ∨
        ∃ content, after.refs.lookup name = some content ∧ parseRef content = .ok none)

theorem Halfway.refl (ls : Lifestream) (source start : Device) : Halfway ls source start start :=
  ⟨OnlyRefs.refl start, fun _ => .inl rfl⟩

theorem RefsMoved.halfway {ls : Lifestream} {source start after : Device}
    {behind : List (String × ObjectId)} {report : SyncReport}
    (moved : RefsMoved ls start behind report after)
    (named : ∀ name id, (name, id) ∈ behind → source.getRef name = .ok (some id)) :
    Halfway ls source start after := by
  apply Halfway.mk moved.only
  intro name
  by_cases behind' : name ∈ behind.map Prod.fst
  · obtain ⟨⟨_, id⟩, member, rfl⟩ := List.mem_map.mp behind'
    obtain ⟨fate, meets⟩ := moved.met _ id member
    have landed := moved.landed _ id fate member meets
    cases moves : fate.moves with
    | true =>
        rw [moves, if_pos rfl] at landed
        exact .inr ⟨id, fate, named _ id member, meets, moves, .inl landed⟩
    | false =>
        rw [moves, if_neg Bool.false_ne_true] at landed
        exact .inl landed
  · exact .inl (moved.others name behind')

/-- A ref on its way to the source's target is left there or on the way. -/
theorem Halfway.write {ls : Lifestream} {source start during : Device} {name : String}
    {id : ObjectId} {fate : Fate} (halfway : Halfway ls source start during)
    (named : source.getRef name = .ok (some id)) (meets : Meets ls start name id fate)
    (moves : fate.moves = true) {outcome : EStateM.Result Lifestream.Error Device Unit}
    (written : RefWritten name id during outcome) :
    Halfway ls source start (finalState outcome) := by
  have elsewhere : ∀ after (content : Bytes), OnlyRefs during after →
      after.refs = during.refs.insert name content →
      (content = refText id ∨ parseRef content = .ok none) → Halfway ls source start after := by
    intro after content only text either
    apply Halfway.mk (halfway.only.trans only)
    intro other
    by_cases same : other = name
    · subst same
      refine .inr ⟨id, fate, named, meets, moves, ?_⟩
      rw [text, AList.lookup_insert]
      rcases either with rfl | blank
      · exact .inl rfl
      · exact .inr ⟨content, rfl, blank⟩
    · rw [text, AList.lookup_insert_ne same]
      exact halfway.refs other
  cases written with
  | written after only text => exact elsewhere after _ only text (.inl rfl)
  | refused error after only text =>
      apply Halfway.mk (halfway.only.trans only)
      intro other
      rw [text]
      exact halfway.refs other
  | torn error after only content blank text tears =>
      exact elsewhere after content only text (.inr blank)

/-! ## Carrying the refs over -/

section Refs

variable {σ : Type} {terms : Terms SyncCall SyncReply Error σ} {ls : Lifestream}
  {view : σ → Device × Device} {harm : Device × Device → Prop} {source start : Device}

/-- A ref that has to move is written. -/
theorem safe_move (serves : Serves terms ls view harm)
    (harmless : ∀ after, Halfway ls source start after → harm (source, after))
    {behind : List (String × ObjectId)} {report : SyncReport} {name : String} {id : ObjectId}
    {fate : Fate} {state : σ} {during : Device} (here : view state = (source, during))
    (moved : RefsMoved ls start behind report during)
    (halfway : Halfway ls source start during) (named : source.getRef name = .ok (some id))
    (fresh : name ∉ behind.map Prod.fst) (meets : Meets ls start name id fate)
    (moves : fate.moves = true) :
    (askDestination (.setRef name id) >>= fun _ => pure (report.note name fate)).Safe terms
      (fun next later => ∃ after, view later = (source, after) ∧
        RefsMoved ls start (behind ++ [(name, id)]) next after) state := by
  have written := set_ref_result name id during
  apply serves.ask
  case unharmed =>
    rw [here]
    exact harmless during halfway
  case harmless =>
    rw [here, pair_destination_final, localTransport, writing_final]
    exact harmless _ (halfway.write named meets moves written)
  case leads =>
    intro reply after real later quiet
    obtain ⟨performed, kept⟩ := pair_destination_ok real
    rw [here, localTransport] at performed
    rw [here] at kept
    have done := writing_ok performed
    rw [done] at written
    rw [serves.quiet after later quiet]
    refine ⟨(view after).2, Prod.ext kept rfl, ?_⟩
    cases written with
    | written _ only text =>
        apply moved.extend fresh meets only
        rw [moves]
        exact text

theorem safe_sync_ref (serves : Serves terms ls view harm)
    (harmless : ∀ after, Halfway ls source start after → harm (source, after))
    {behind : List (String × ObjectId)} {report : SyncReport} {name : String} {id : ObjectId}
    {state : σ} {during : Device} (here : view state = (source, during))
    (moved : RefsMoved ls start behind report during)
    (halfway : Halfway ls source start during) (named : source.getRef name = .ok (some id))
    (fresh : name ∉ behind.map Prod.fst) :
    (syncRef report (name, id)).Safe terms
      (fun next later => ∃ after, view later = (source, after) ∧
        RefsMoved ls start (behind ++ [(name, id)]) next after) state := by
  unfold syncRef
  apply serves.toReads.ask .destination (.getRef name) rfl
  case unharmed =>
    rw [here]
    exact harmless during halfway
  case leads =>
    intro target after answer same
    rw [here] at same
    obtain ⟨performed, _⟩ := pair_destination_ok answer
    rw [here, localTransport] at performed
    have found : start.getRef name = .ok target := by
      rw [← moved.only.get_ref (moved.others name fresh)]
      exact reading_ok performed
    have stays : ∀ fate, Meets ls start name id fate → fate.moves = false → ∀ between,
        view between = (source, during) →
        ∃ after, view between = (source, after) ∧
          RefsMoved ls start (behind ++ [(name, id)]) (report.note name fate) after := by
      intro fate meets stands between there
      refine ⟨during, there, moved.extend fresh meets (OnlyRefs.refl during) ?_⟩
      rw [stands]
      rfl
    cases target with
    | none =>
        have meets : Meets ls start name id .set := found
        exact safe_move serves harmless same moved halfway named fresh meets rfl
    | some old =>
        simp only
        split
        case isTrue equal =>
          intro later quiet
          rw [equal] at found
          exact stays .same found rfl later ((serves.quiet after later quiet).trans same)
        case isFalse differs =>
          apply Program.Safe.bind
          have unharmed : ∀ _ : ObjectId, harm (view after) := by
            rw [same]
            exact fun _ => harmless during halfway
          apply (safe_is_ancestor serves.toReads old id after unharmed).imp
          rintro forward later ⟨back, reaches, reads⟩
          rw [same] at back reaches reads
          have graph : Ancestor ls during old id ↔ Ancestor ls start old id := by
            rw [Ancestor, Ancestor, moved.only.parents_of ls]
          cases forward with
          | true =>
              have meets : Meets ls start name id .advanced :=
                ⟨old, found, differs, graph.mp (reaches.mp rfl)⟩
              exact safe_move serves harmless back moved halfway named fresh meets rfl
          | false =>
              have meets : Meets ls start name id .conflicted := by
                refine ⟨old, found, differs, ?_, moved.only.history_reads ls (reads rfl)⟩
                exact fun path => Bool.false_ne_true (reaches.mpr (graph.mpr path))
              intro last quiet
              exact stays .conflicted meets rfl last ((serves.quiet later last quiet).trans back)

theorem safe_sync_refs (serves : Serves terms ls view harm)
    (harmless : ∀ after, Halfway ls source start after → harm (source, after))
    {report : SyncReport} {state : σ} (here : view state = (source, start))
    (blank : ∀ fate, report.named fate = []) :
    (syncRefs report).Safe terms
      (fun next later => ∃ refs after, view later = (source, after) ∧
        source.readRefs = .ok refs ∧ RefsMoved ls start refs next after) state := by
  unfold syncRefs
  apply serves.toReads.ask .source .refs rfl
  case unharmed =>
    rw [here]
    exact harmless start (Halfway.refl ls source start)
  case leads =>
    intro refs after answer same
    rw [here] at same
    obtain ⟨performed, _⟩ := pair_source_ok answer
    rw [here, localTransport] at performed
    have read := reading_ok performed
    have named : ∀ name id, (name, id) ∈ refs → source.getRef name = .ok (some id) :=
      fun name id => (read_refs_mem source refs read name id).mp
    suffices carried : (refs.foldlM syncRef report).Safe terms (fun next later =>
        ([] ++ refs) ++ [] = refs ∧ ∃ last, view later = (source, last) ∧
          RefsMoved ls start ([] ++ refs) next last) after by
      apply carried.imp
      rintro next later ⟨_, last, there, moved⟩
      exact ⟨refs, last, there, read, moved⟩
    refine safe_fold syncRef (fun behind ahead next later => behind ++ ahead = refs ∧
      ∃ after, view later = (source, after) ∧ RefsMoved ls start behind next after)
      ?step ?steady [] refs report after ⟨rfl, start, same, RefsMoved.start ls start report blank⟩
    case step =>
      rintro behind ⟨name, id⟩ ahead value later ⟨whole, during, there, moved⟩
      have distinct := read_refs_nodup source refs read
      rw [← whole, List.map_append, List.nodup_append] at distinct
      have fresh : name ∉ behind.map Prod.fst := by
        intro old
        exact distinct.2.2 name old name List.mem_cons_self rfl
      have member : (name, id) ∈ refs := by
        rw [← whole]
        exact List.mem_append_right _ List.mem_cons_self
      have halfway : Halfway ls source start during := by
        apply moved.halfway
        intro other target old
        apply named
        rw [← whole]
        exact List.mem_append_left _ old
      apply (safe_sync_ref serves harmless there moved halfway (named name id member) fresh).imp
      rintro next last ⟨after', at', moved'⟩
      exact ⟨by rw [List.append_assoc]; exact whole, after', at', moved'⟩
    case steady =>
      rintro behind ahead value later last ⟨whole, after', there, moved⟩ quiet
      exact ⟨whole, after', (serves.quiet later last quiet).trans there, moved⟩

end Refs

/-! ## A whole sync -/

/-- What a sync that ended has done: the destination has all the source has, and
every ref of the source has met its fate. -/
def Synced (ls : Lifestream) (source dest : Device) (report : SyncReport) (after : Device) : Prop :=
  ∃ start refs, Carried ls source dest start ∧
    (∀ id, source.has id = true → start.has id = true) ∧ source.readRefs = .ok refs ∧
    RefsMoved ls start refs report after

/-- What a sync that failed may have done: no ref is touched before the
destination has all the source has. -/
def Midway (ls : Lifestream) (source dest after : Device) : Prop :=
  ∃ start, Carried ls source dest start ∧ Halfway ls source start after ∧
    ((∀ id, source.has id = true → start.has id = true) ∨ after.refs = start.refs)

theorem mem_missing (source dest : Device) (id : ObjectId) :
    id ∈ missing source.listIds dest.listIds ↔ source.has id = true ∧ dest.has id = false := by
  rw [missing, List.mem_insertionSort, List.mem_filter, decide_eq_true_iff, listed_iff, listed_iff,
    Bool.not_eq_true]

theorem safe_sync {σ : Type} {terms : Terms SyncCall SyncReply Error σ} {ls : Lifestream}
    {view : σ → Device × Device} {harm : Device × Device → Prop} {source dest : Device}
    (serves : Serves terms ls view harm)
    (harmless : ∀ after, Midway ls source dest after → harm (source, after)) (state : σ)
    (here : view state = (source, dest)) :
    sync.Safe terms
      (fun report later => ∃ after, view later = (source, after) ∧
        Synced ls source dest report after) state := by
  have early : ∀ after, Carried ls source dest after → harm (source, after) := by
    intro after carried
    exact harmless after ⟨after, carried, Halfway.refl ls source after, .inr rfl⟩
  unfold sync
  apply serves.toReads.ask .source .haveIds rfl
  case unharmed =>
    rw [here]
    exact early dest (Carried.refl ls source dest)
  case leads =>
    intro sourceIds between answer same
    obtain ⟨performed, _⟩ := pair_source_ok answer
    rw [here, localTransport] at performed
    cases reading_ok performed
    rw [here] at same
    apply serves.toReads.ask .destination .haveIds rfl
    case unharmed =>
      rw [same]
      exact early dest (Carried.refl ls source dest)
    case leads =>
      intro destIds next answer' same'
      obtain ⟨performed', _⟩ := pair_destination_ok answer'
      rw [same, localTransport] at performed'
      cases reading_ok performed'
      rw [same] at same'
      apply Program.Safe.bind
      apply (safe_transfer serves early _ _ next same').imp
      rintro report later ⟨noted, start, there, carried, present⟩
      have whole : ∀ id, source.has id = true → start.has id = true := by
        intro id held
        cases before : dest.has id with
        | true => exact carried.advances.toKeeps.has before
        | false => exact present id ((mem_missing source dest id).mpr ⟨held, before⟩)
      apply (safe_sync_refs serves _ there _).imp
      · rintro last final ⟨refs, after, there', read, moved⟩
        exact ⟨after, there', start, refs, carried, whole, read, moved⟩
      · exact fun after halfway => harmless after ⟨start, carried, halfway, .inl whole⟩
      · intro fate
        rw [noted fate]
        cases fate <;> rfl

/-- What a sync on its own has done, if it ended and if it failed. -/
theorem sync_stores_outcome (ls : Lifestream) (source dest : Device) :
    match syncStores ls (source, dest) with
    | .ok report later => later.1 = source ∧ Synced ls source dest report later.2
    | .error _ later => later.1 = source ∧ Midway ls source dest later.2 := by
  have serves := serves_pair ls fun devices => devices.1 = source ∧ Midway ls source dest devices.2
  have ended := safe_run (safe_sync serves (fun after midway => ⟨rfl, midway⟩) (source, dest) rfl)
  change match sync.run (localPair ls) (source, dest) with
    | .ok report later => later.1 = source ∧ Synced ls source dest report later.2
    | .error _ later => later.1 = source ∧ Midway ls source dest later.2
  cases outcome : sync.run (localPair ls) (source, dest) with
  | ok report later =>
      rw [outcome] at ended
      obtain ⟨after, rfl, synced⟩ := ended
      exact ⟨rfl, synced⟩
  | error error later =>
      rw [outcome] at ended
      exact ended

theorem synced_of_ok {ls : Lifestream} {source dest : Device} {report : SyncReport}
    {later : Device × Device} (ran : syncStores ls (source, dest) = .ok report later) :
    later.1 = source ∧ Synced ls source dest report later.2 := by
  have outcome := sync_stores_outcome ls source dest
  rw [ran] at outcome
  exact outcome

end HorizonOs.Constellation
