import HorizonOs.Aura.Execute
import HorizonOs.Cells.Portal

/-!
# Where a file grant leads

The scope check compares a request with the grant component by component, as it
is written; whoever opens the request resolves its dots. What is opened lies
beneath the grant exactly when the part of the request behind it comes back to
every directory it climbs out of.
-/

namespace HorizonOs.Aura

open HorizonOs.Lib HorizonOs.Lib.ByteCodec HorizonOs.Lib.Text HorizonOs.Lib.LexicalPath
open HorizonOs.Lib.Runs HorizonOs.Lifestream HorizonOs.Weave HorizonOs.Cells

set_option autoImplicit false

/-- Behind as many components as the grant has, the request climbs some way up
and its last names down start with what it climbed over. -/
def ComesBack (names : List Bytes) (path : Bytes) : Prop :=
  let form := normalForm
    (((LexicalPath.components path).drop (names.length + 1)).filterMap componentStep)
  names.drop (names.length - form.1) <+: form.2

instance : ∀ names path, Decidable (ComesBack names path) := fun names path =>
  inferInstanceAs (Decidable (names.drop (names.length - (normalForm
    (((LexicalPath.components path).drop (names.length + 1)).filterMap componentStep)).1) <+:
      (normalForm
        (((LexicalPath.components path).drop (names.length + 1)).filterMap componentStep)).2))

/-- The components of an absolute path without dots. -/
def plainComponents (names : List Bytes) : List Component := .root :: names.map .normal

theorem root_once (path : Bytes) : ∀ first rest, LexicalPath.components path = first :: rest →
    Component.root ∉ rest := by
  intro first rest split
  have clean := root_not_in_parts (splitSlash path)
  unfold LexicalPath.components at split
  dsimp only at split
  split at split
  · cases split
    exact clean
  · split at split
    · cases split
      exact clean
    · rw [List.nil_append] at split
      intro member
      rw [split] at clean
      exact clean (List.mem_cons_of_mem _ member)

theorem plain_steps (names : List Bytes) (rest : List Component) :
    (names.map Component.normal ++ rest).filterMap componentStep =
      names.map Step.down ++ rest.filterMap componentStep := by
  rw [List.filterMap_append]
  congr 1
  induction names with
  | nil => rfl
  | cons name names ih => simp only [List.map_cons, List.filterMap_cons, componentStep, ih]

/-- A covered request names something beneath the grant exactly when it comes back. -/
theorem covered_beneath_iff (workingDirectory names : List Bytes) (grant request : Bytes)
    (plain : LexicalPath.components grant = plainComponents names)
    (covered : (Resource.file grant).covers (.file request) = true) :
    names <+: resolve workingDirectory request ↔ ComesBack names request := by
  obtain ⟨rest, split⟩ := (covers_file_iff grant request).mp covered
  rw [plain, plainComponents, List.cons_append] at split
  have relative := root_once request _ _ split.symm
  have behind : (LexicalPath.components request).drop (names.length + 1) = rest := by
    rw [← split, List.drop_succ_cons]
    exact List.drop_left' (List.length_map ..)
  rw [resolve_absolute workingDirectory request _ split.symm relative, plain_steps,
    LexicalPath.walk_append, walk_down, List.nil_append, ComesBack, behind]
  exact prefix_walk_iff names _

/-- A path that was opened on the strength of an admitted request: the request
itself, or what directory entries lead to from it. -/
def OpenedUnder (session : Session) (path : Bytes) : Prop :=
  ∃ root names, path = List.foldl joinName root names ∧
    ∃ later cap rights, grantsOf later = grantsOf session ∧ Admits later cap root rights

/-- A plan's step touches files only under paths that the broker admitted. -/
theorem run_step_admitted (os : Aura.Os) (rank : Ranking) (step : Step) (confirm : Bool)
    (aura : Executor) (standard : aura.catalog = Catalog.standard os rank) :
    ∃ done, (runStep step confirm aura).2.files = aura.files ++ done ∧
      ∀ op ∈ done, ∀ path ∈ op.paths, OpenedUnder aura.session path := by
  have idle : ∃ done, aura.files = aura.files ++ done ∧
      ∀ op ∈ done, ∀ path ∈ op.paths, OpenedUnder aura.session path :=
    ⟨[], by simp, by simp⟩
  unfold runStep
  cases known : aura.catalog.get step.tool with
  | none => exact idle
  | some tool =>
      dsimp only
      split
      · exact idle
      · cases required : tool.required step.args with
        | error error => exact idle
        | ok asked =>
            dsimp only
            have files := broker_needs_files asked aura
            cases brokered : brokerNeeds asked aura with
            | mk leases later =>
                rw [brokered] at files
                cases leases with
                | none =>
                    dsimp only
                    rw [files]
                    exact idle
                | some leases =>
                    have admits := broker_needs_admits asked aura later leases brokered
                    have member : tool ∈ Catalog.standard os rank := by
                      rw [← standard]
                      exact List.mem_of_find?_eq_some known
                    obtain ⟨done, ran, under⟩ := standard_tool_acts os rank tool member step.args
                      leases asked required later.files
                    refine ⟨done, ?_, ?_⟩
                    · dsimp only [runTool]
                      rw [← files, ← ran]
                      cases tool.run step.args leases later.files <;> rfl
                    · intro op inside path on
                      obtain ⟨root, named, names, same⟩ := under op inside path on
                      exact ⟨root, names, same, admits root named⟩

end HorizonOs.Aura
