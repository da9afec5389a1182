import HorizonOs.Constellation.Network
import HorizonOs.Lifestream.RefFiles

/-!
# Names of refs from a peer

A request brings any UTF-8 text as the name of a ref, and it is joined to the directory of the
refs unchecked. Which names keep the store in that directory can be told from the names alone.
-/

namespace HorizonOs.Constellation

open HorizonOs.Lib.ByteCodec HorizonOs.Lib.Text HorizonOs.Lib.Runs
open HorizonOs.Lifestream

set_option autoImplicit false

/-! ## Serving refs from files -/

def onFiles {α : Type} (call : EStateM Lifestream.Error RefHost α) : EStateM Error RefHost α :=
  fun host =>
    match call host with
    | .ok value after => .ok value after
    | .error error after => .error (.lifestream error) after

/-- `LocalTransport`, with its refs in files; its other calls are left open. -/
def refFiles (defaults : Defaults) (refs : HostPath) (others : Transport RefHost) :
    Transport RefHost
  | .getRef name => onFiles (getRefFile refs name)
  | .setRef name id => onFiles (setRefFile defaults refs name id)
  | call => others call

/-- The ref that a request names. -/
def Req.refName : Req → Option String
  | .getRef name => some name
  | .setRef name _ => some name
  | _ => none

/-- A request that opened only direct children of the directory, changed nothing else, and was
refused where it opened none. -/
def Confined (refs : HostPath) (before : RefHost) (answer : Resp × RefHost) : Prop :=
  ∃ files, answer.2.opened = before.opened ++ files ∧
    (∀ place ∈ files, ∃ child, place = refs ++ [child]) ∧
    (∀ place ∉ files, answer.2.fs place = before.fs place) ∧
    (files = [] → answer.1 = .ref none ∨ ∃ message, answer.1 = .err message)

/-- What the name of a ref has to be: one that no path can hold, one of a directory, or one that
leads to a direct child of the directory of the refs. -/
def StaysInRefs (refs : HostPath) (name : String) : Prop :=
  '\x00' ∈ name.toList ∨ endsInSlash name = true ∨
    (endOf [] (refPath refs name) ≠ [] ∧ (endOf [] (refPath refs name)).dropLast = refs) ∨
    endOf [] (refPath refs name) <+: refs ∨
    Passed [] (refPath refs name) (endOf [] (refPath refs name))

instance (refs : HostPath) (name : String) : Decidable (StaysInRefs refs name) :=
  inferInstanceAs (Decidable (_ ∨ _))

section Names

variable {defaults : Defaults} {refs : HostPath} {others : Transport RefHost} {name : String}

/-- A file that a staying name opens is a child of the directory. -/
theorem child_of_stays {fs : HostFs} (tree : LinkFree fs) (dirs : Directories fs refs)
    (stays : StaysInRefs refs name) {place : HostPath} (opens : OpensAt fs refs name place) :
    ∃ child, place = refs ++ [child] := by
  obtain ⟨ends, passes⟩ := resolve_done tree opens.resolved
  rw [StaysInRefs, ← ends] at stays
  rcases stays with nul | slashed | ⟨below, parent⟩ | above | passed
  · exact absurd nul opens.clean
  · exact absurd slashed opens.whole
  · refine ⟨place.getLast below, ?_⟩
    rw [← parent, List.dropLast_append_getLast below]
  · exact absurd (dirs.dirs place above) opens.file
  · exact absurd (passes place passed) opens.file

theorem confined_refused {host : RefHost} {resp : Resp}
    (refused : resp = .ref none ∨ ∃ message, resp = .err message) :
    Confined refs host (resp, host) :=
  ⟨[], (List.append_nil _).symm, nofun, fun _ _ => rfl, fun _ => refused⟩

theorem confined_opened {host : RefHost} {resp : Resp} {place : HostPath} (fs : HostFs)
    (child : ∃ child, place = refs ++ [child])
    (same : ∀ other, other ≠ place → fs other = host.fs other) :
    Confined refs host (resp, { host with fs }.opens place) := by
  refine ⟨[place], rfl, ?_, ?_, ?_⟩
  · intro other member
    rw [List.mem_singleton.mp member]
    exact child
  · intro other outside
    exact same other fun equal => outside (List.mem_singleton.mpr equal)
  · intro none_opened
    cases none_opened

theorem confined_get {host : RefHost} (tree : LinkFree host.fs) (dirs : Directories host.fs refs)
    (stays : StaysInRefs refs name) :
    Confined refs host (handle (refFiles defaults refs others) (.getRef name) host) := by
  rw [handle, refFiles, onFiles]
  rcases @get_ref_file_cases refs name host with
    absent | ⟨error, failed⟩ | ⟨place, opens, ⟨target, read⟩ | ⟨error, failed⟩⟩
  · rw [absent]
    exact confined_refused (.inl rfl)
  · rw [failed]
    exact confined_refused (.inr ⟨_, rfl⟩)
  · rw [read]
    exact confined_opened host.fs (child_of_stays tree dirs stays opens) fun _ _ => rfl
  · rw [failed]
    exact confined_opened host.fs (child_of_stays tree dirs stays opens) fun _ _ => rfl

theorem confined_set {host : RefHost} (tree : LinkFree host.fs) (dirs : Directories host.fs refs)
    (stays : StaysInRefs refs name) (id : ObjectId) :
    Confined refs host (handle (refFiles defaults refs others) (.setRef name id) host) := by
  rw [handle, refFiles, onFiles]
  rcases @set_ref_file_cases refs name host defaults id with
    ⟨error, failed⟩ | ⟨place, inode, opens, written⟩
  · rw [failed]
    exact confined_refused (.inr ⟨_, rfl⟩)
  · rw [written]
    exact confined_opened _ (child_of_stays tree dirs stays opens) fun other apart =>
      Function.update_of_ne apart _ _

end Names

/-! ## A tree that shows where a name leads -/

/-- Directories wherever a path goes, and a file where it ends. -/
def exposing (refs : HostPath) (path : List Name) : HostFs := fun place =>
  if place <+: refs ∨ Passed [] path place then some (.dir 0)
  else if place = endOf [] path then some (.file 0 [])
  else none

section Exposing

variable {refs : HostPath} {path : List Name}

theorem exposing_dir {place : HostPath} (goes : place <+: refs ∨ Passed [] path place) :
    IsDir (exposing refs path) place := ⟨0, if_pos goes⟩

/-- A path that ends somewhere it did not pass came from the directory it ends in. -/
theorem passed_parent {place : HostPath} {name : Name} (ends : endOf [] path = place ++ [name])
    (apart : ¬Passed [] path (place ++ [name])) : Passed [] path place := by
  induction path using List.reverseRecOn with
  | nil =>
      have lengths := congrArg List.length ends
      simp [endOf] at lengths
  | append_singleton front last _ =>
      have passed : ∀ above, above <+: endOf [] front → Passed [] (front ++ [last]) above := by
        intro above passes
        refine ⟨front.length, by simp, ?_⟩
        rwa [List.take_left]
      rw [endOf, List.foldl_append, List.foldl_cons, List.foldl_nil] at ends
      change enterName (endOf [] front) last = _ at ends
      by_cases single : last = dot
      · rw [enterName, if_pos single] at ends
        exact absurd (passed _ (by rw [ends])) apart
      by_cases double : last = dotdot
      · rw [enterName, if_neg single, if_pos double] at ends
        exact absurd (passed _ (ends ▸ List.dropLast_prefix _)) apart
      · rw [enterName, if_neg single, if_neg double] at ends
        exact passed place ((List.append_inj' ends rfl).1 ▸ List.prefix_refl _)

theorem exposing_link_free : LinkFree (exposing refs path) where
  root := exposing_dir (.inl List.nil_prefix)
  parents place name present := by
    apply exposing_dir
    have inside : place <+: place ++ [name] := List.prefix_append _ _
    by_cases goes : place ++ [name] <+: refs ∨ Passed [] path (place ++ [name])
    · rcases goes with above | ⟨count, below, passes⟩
      · exact .inl (inside.trans above)
      · exact .inr ⟨count, below, inside.trans passes⟩
    · rw [exposing, if_neg goes] at present
      have ends : place ++ [name] = endOf [] path := by
        by_contra apart
        exact present (if_neg apart)
      exact .inr (passed_parent ends.symm fun passed => goes (.inr passed))
  unlinked place target found := by
    rw [exposing] at found
    split_ifs at found
    · cases found
    · cases found

theorem exposing_resolve (apart : ¬(endOf [] path <+: refs ∨ Passed [] path (endOf [] path))) :
    resolve (exposing refs path) true path = .ok (endOf [] path) ∧
      exposing refs path (endOf [] path) = some (.file 0 []) := by
  have file : exposing refs path (endOf [] path) = some (.file 0 []) := by
    rw [exposing, if_neg apart, if_pos rfl]
  have leg : advance (exposing refs path) true [] path = .done (endOf [] path) := by
    apply advance_over
    · intro count below
      exact exposing_dir (.inr ⟨count, below, List.prefix_refl _⟩)
    · intro target
      rw [file]
      exact nofun
  refine ⟨?_, file⟩
  rw [resolve, walk, leg]

end Exposing

/-- A name that does not stay opens a file elsewhere, in a tree that has one there. -/
theorem escapes {defaults : Defaults} {refs : HostPath} {others : Transport RefHost}
    {name : String} (leaves : ¬StaysInRefs refs name) :
    ¬Confined refs ⟨exposing refs (refPath refs name), []⟩
      (handle (refFiles defaults refs others) (.getRef name)
        ⟨exposing refs (refPath refs name), []⟩) := by
  rw [StaysInRefs, not_or, not_or, not_or] at leaves
  obtain ⟨nul, slashed, outside, apart⟩ := leaves
  obtain ⟨resolved, file⟩ := exposing_resolve apart
  rintro ⟨files, opened, children, _, _⟩
  have only : files = [endOf [] (refPath refs name)] := by
    rw [← List.nil_append files]
    refine opened.symm.trans ?_
    simp only [handle, refFiles, onFiles, getRefFile, if_neg nul, resolved, file, if_neg slashed]
    cases parseRef [] with
    | ok target => rfl
    | error error => rfl
  obtain ⟨child, place⟩ := children (endOf [] (refPath refs name)) (by rw [only]; exact List.mem_singleton_self _)
  apply outside
  rw [place]
  exact ⟨List.append_ne_nil_of_right_ne_nil _ (List.cons_ne_nil _ _), List.dropLast_concat⟩

/-- The names that keep the store in the directory of its refs, of all that can arrive: those and
no others do, in every tree without links. -/
theorem ref_names_confined_iff (rt : Runtime) (defaults : Defaults) (refs : HostPath)
    (others : Transport RefHost) (plain : ∀ part ∈ refs, Plain part) (name : String)
    (arrives : StrFits name) :
    (∀ (frame : Bytes) (req : Req) (host : RefHost), Req.decode rt frame = .ok req →
        req.refName = some name → LinkFree host.fs → Directories host.fs refs →
          Confined refs host (handle (refFiles defaults refs others) req host)) ↔
      StaysInRefs refs name := by
  constructor
  · intro confined
    by_contra leaves
    apply @escapes defaults refs others name leaves
    apply confined (Req.encode (.getRef name)) (.getRef name)
    · exact decode_encode_req rt (.getRef name) arrives
    · rfl
    · exact exposing_link_free
    · exact ⟨plain, fun place above => exposing_dir (.inl above)⟩
  · intro stays frame req host _ named tree dirs
    cases req with
    | getRef found =>
        cases named
        exact confined_get tree dirs stays
    | setRef found id =>
        cases named
        exact confined_set tree dirs stays id
    | _ => cases named

/-! ### A store on a key -/

def sampleRefs : HostPath := [utf8 "key", utf8 "store", utf8 "refs"]

theorem sample_refs_plain : ∀ part ∈ sampleRefs, Plain part := by
  intro part member
  have check : ∀ part ∈ sampleRefs, part ≠ [] ∧ part ≠ dot ∧ part ≠ dotdot ∧ slash ∉ part := by
    decide
  obtain ⟨nonempty, single, double, noSlash⟩ := check part member
  exact ⟨nonempty, single, double, noSlash⟩

def noOthers : Transport RefHost := fun _ => throw (.sync "not served here")

def sampleDefaults : Defaults := ⟨0o644, 0o755⟩

theorem head_confined :
    (∀ (frame : Bytes) (req : Req) (host : RefHost), Req.decode sampleRuntime frame = .ok req →
        req.refName = some "HEAD" → LinkFree host.fs → Directories host.fs sampleRefs →
          Confined sampleRefs host
            (handle (refFiles sampleDefaults sampleRefs noOthers) req host)) ↔
      StaysInRefs sampleRefs "HEAD" :=
  ref_names_confined_iff sampleRuntime sampleDefaults sampleRefs noOthers sample_refs_plain "HEAD"
    (by decide)

/-- A name that leads to the salt of the store, beside the directory of its refs. -/
theorem salt_read_as_ref : ¬∀ (name : String), StrFits name → ∀ (frame : Bytes) (req : Req)
    (host : RefHost), Req.decode sampleRuntime frame = .ok req → req.refName = some name →
      LinkFree host.fs → Directories host.fs sampleRefs →
        Confined sampleRefs host
          (handle (refFiles sampleDefaults sampleRefs noOthers) req host) := by
  intro confined
  have fits : StrFits "../keysalt" := by decide
  have leaves : ¬StaysInRefs sampleRefs "../keysalt" := by decide
  apply @escapes sampleDefaults sampleRefs noOthers "../keysalt" leaves
  apply confined "../keysalt" fits (Req.encode (.getRef "../keysalt")) (.getRef "../keysalt")
  · exact decode_encode_req sampleRuntime (.getRef "../keysalt") fits
  · rfl
  · exact exposing_link_free
  · exact ⟨sample_refs_plain, fun place above => exposing_dir (.inl above)⟩

end HorizonOs.Constellation
