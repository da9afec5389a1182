import HorizonOs.Lifestream.Trees

/-!
# Refs as files

`set_ref` and `get_ref` on the file system of the host: the name of a ref is joined to the
directory of the refs as it is. In a tree without links a path leads where its names say, over
directories all the way.
-/

namespace HorizonOs.Lifestream

open HorizonOs.Lib.ByteCodec HorizonOs.Lib.Text

set_option autoImplicit false

/-! ## The calls -/

/-- The host, with the files that were opened on it so far: a history variable. -/
structure RefHost where
  fs : HostFs
  opened : List HostPath

def RefHost.opens (host : RefHost) (place : HostPath) : RefHost :=
  { host with opened := host.opened ++ [place] }

/-- What the standard library answers to a path with a NUL in it, before any system call. -/
def nulMessage : String := "file name contained an unexpected NUL byte"

/-- A path that ends so names a directory. -/
def endsInSlash (name : String) : Bool := (utf8 name).getLast? = some slash

/-- `self.root.join("refs").join(name)`. -/
def refPath (refs : HostPath) (name : String) : HostPath := joinPath refs (utf8 name)

def getRefFile (refs : HostPath) (name : String) : EStateM Error RefHost (Option ObjectId) :=
  fun host =>
    if '\x00' ∈ name.toList then .error (.io nulMessage) host
    else
      match resolve host.fs true (refPath refs name) with
      | .error .notFound => .ok none host
      | .error error => .error (.io error.display) host
      | .ok place =>
          match host.fs place with
          | none => .ok none host
          | some (.file _ content) =>
              if endsInSlash name then .error (.io OsError.notADirectory.display) host
              else
                match parseRef content with
                | .ok target => .ok target (host.opens place)
                | .error error => .error error (host.opens place)
          | some (.dir _) => .error (.io OsError.isADirectory.display) host
          | some _ => .error (.io OsError.notAFile.display) host

def setRefFile (defaults : Defaults) (refs : HostPath) (name : String) (id : ObjectId) :
    EStateM Error RefHost Unit := fun host =>
  if '\x00' ∈ name.toList then .error (.io nulMessage) host
  else
    match resolve host.fs true (refPath refs name) with
    | .error error => .error (.io error.display) host
    | .ok place =>
        if endsInSlash name then
          match host.fs place with
          | some (.file _ _) => .error (.io OsError.notADirectory.display) host
          | _ => .error (.io OsError.isADirectory.display) host
        else
          match writeFile defaults host.fs (refPath refs name) (refText id) with
          | .ok fs => .ok () ({ host with fs }.opens place)
          | .error error => .error (.io error.display) host

/-! ## Where a path leads -/

def IsDir (fs : HostFs) (place : HostPath) : Prop := ∃ perm, fs place = some (.dir perm)

/-- Everything lies in a directory, and there are no links. -/
structure LinkFree (fs : HostFs) : Prop where
  root : IsDir fs []
  parents : ∀ place name, fs (place ++ [name]) ≠ none → IsDir fs place
  unlinked : ∀ place target, fs place ≠ some (.symlink target)

/-- One name from a place, by the names alone. -/
def enterName (place : HostPath) (name : Name) : HostPath :=
  if name = dot then place else if name = dotdot then place.dropLast else place ++ [name]

def endOf (start : HostPath) (path : List Name) : HostPath := path.foldl enterName start

/-- A place is one that a path goes over, or lies above one. -/
def Passed (start : HostPath) (path : List Name) (place : HostPath) : Prop :=
  ∃ count < path.length, place <+: endOf start (path.take count)

instance (start : HostPath) (path : List Name) (place : HostPath) :
    Decidable (Passed start path place) :=
  inferInstanceAs (Decidable (∃ count, count < path.length ∧ place <+: endOf start (path.take count)))

theorem LinkFree.above {fs : HostFs} (tree : LinkFree fs) {place above : HostPath}
    (here : IsDir fs place) (higher : above <+: place) : IsDir fs above := by
  obtain ⟨names, rfl⟩ := higher
  induction names using List.reverseRecOn with
  | nil => rwa [List.append_nil] at here
  | append_singleton names name ih =>
      apply ih
      rw [← List.append_assoc] at here
      obtain ⟨perm, found⟩ := here
      apply tree.parents (above ++ names) name
      rw [found]
      exact Option.some_ne_none _

/-- In a tree without links, a walk that ends does so where the names say, and has come over
directories only. -/
theorem advance_done {fs : HostFs} (tree : LinkFree fs) (follow : Bool) (path : List Name)
    (start place : HostPath) (here : IsDir fs start)
    (done : advance fs follow start path = .done place) :
    place = endOf start path ∧ ∀ place, Passed start path place → IsDir fs place := by
  induction path generalizing start with
  | nil =>
      cases done
      exact ⟨rfl, fun _ ⟨count, below, _⟩ => absurd below (Nat.not_lt_zero count)⟩
  | cons name rest ih =>
      have onward : ∀ next, IsDir fs next → enterName start name = next →
          advance fs follow next rest = .done place → place = endOf start (name :: rest) ∧
            ∀ place, Passed start (name :: rest) place → IsDir fs place := by
        rintro next there rfl walked
        obtain ⟨ends, passes⟩ := ih _ there walked
        refine ⟨ends, ?_⟩
        rintro passed ⟨count, below, above⟩
        cases count with
        | zero => exact tree.above here above
        | succ count => exact passes passed ⟨count, Nat.lt_of_succ_lt_succ below, above⟩
      have last : rest = [] → enterName start name = place → place = endOf start (name :: rest) ∧
          ∀ place, Passed start (name :: rest) place → IsDir fs place := by
        rintro rfl rfl
        refine ⟨rfl, ?_⟩
        rintro passed ⟨count, below, above⟩
        obtain rfl := Nat.lt_one_iff.mp below
        exact tree.above here above
      rw [advance] at done
      by_cases single : name = dot
      · rw [if_pos single] at done
        exact onward start here (if_pos single) done
      by_cases double : name = dotdot
      · rw [if_neg single, if_pos double] at done
        have there : enterName start name = start.dropLast := by
          rw [enterName, if_neg single, if_pos double]
        exact onward _ (tree.above here (List.dropLast_prefix start)) there done
      · rw [if_neg single, if_neg double] at done
        have there : enterName start name = start ++ [name] := by
          rw [enterName, if_neg single, if_neg double]
        cases found : fs (start ++ [name]) with
        | none =>
            rw [found] at done
            dsimp only at done
            split_ifs at done with ended
            cases done
            exact last ended there
        | some inode =>
            cases inode with
            | dir perm =>
                rw [found] at done
                exact onward _ ⟨perm, found⟩ there done
            | symlink target => exact absurd found (tree.unlinked _ target)
            | file perm content =>
                rw [found] at done
                dsimp only at done
                split_ifs at done with ended
                cases done
                exact last ended there
            | special =>
                rw [found] at done
                dsimp only at done
                split_ifs at done with ended
                cases done
                exact last ended there

theorem advance_unlinked {fs : HostFs} (tree : LinkFree fs) (follow : Bool) (path : List Name)
    (start dir : HostPath) (target : Bytes) (rest : List Name) :
    advance fs follow start path ≠ .link dir target rest := by
  induction path generalizing start with
  | nil =>
      intro same
      cases same
  | cons name path ih =>
      rw [advance]
      by_cases single : name = dot
      · rw [if_pos single]
        exact ih start
      by_cases double : name = dotdot
      · rw [if_neg single, if_pos double]
        exact ih start.dropLast
      · rw [if_neg single, if_neg double]
        cases found : fs (start ++ [name]) with
        | none =>
            intro same
            dsimp only at same
            split_ifs at same
            all_goals cases same
        | some inode =>
            cases inode with
            | dir perm => exact ih (start ++ [name])
            | symlink other => exact absurd found (tree.unlinked _ other)
            | file perm content =>
                intro same
                dsimp only at same
                split_ifs at same
                all_goals cases same
            | special =>
                intro same
                dsimp only at same
                split_ifs at same
                all_goals cases same

theorem resolve_done {fs : HostFs} (tree : LinkFree fs) {follow : Bool} {path place : HostPath}
    (resolved : resolve fs follow path = .ok place) :
    place = endOf [] path ∧ ∀ place, Passed [] path place → IsDir fs place := by
  rw [resolve, walk] at resolved
  cases leg : advance fs follow [] path with
  | done reached =>
      rw [leg] at resolved
      cases resolved
      exact advance_done tree follow path [] _ tree.root leg
  | link dir target rest => exact absurd leg (advance_unlinked tree follow path [] dir target rest)
  | failed error =>
      rw [leg] at resolved
      cases resolved

/-- A path leads where its names say when it goes over directories and not to a link. -/
theorem advance_over {fs : HostFs} (follow : Bool) (path : List Name) (start : HostPath)
    (dirs : ∀ count < path.length, IsDir fs (endOf start (path.take count)))
    (unlinked : ∀ target, fs (endOf start path) ≠ some (.symlink target)) :
    advance fs follow start path = .done (endOf start path) := by
  induction path generalizing start with
  | nil => rfl
  | cons name rest ih =>
      have onward : advance fs follow (enterName start name) rest =
          .done (endOf start (name :: rest)) := by
        apply ih (enterName start name)
        · intro count below
          exact dirs (count + 1) (Nat.succ_lt_succ below)
        · exact unlinked
      rw [advance]
      by_cases single : name = dot
      · rw [if_pos single]
        rwa [enterName, if_pos single] at onward
      by_cases double : name = dotdot
      · rw [if_neg single, if_pos double]
        rwa [enterName, if_neg single, if_pos double] at onward
      · rw [if_neg single, if_neg double]
        rw [enterName, if_neg single, if_neg double] at onward
        have there : enterName start name = start ++ [name] := by
          rw [enterName, if_neg single, if_neg double]
        cases rest with
        | nil =>
            change _ = Leg.done (enterName start name)
            have plain : ∀ target, fs (start ++ [name]) ≠ some (.symlink target) := by
              rw [← there]
              exact unlinked
            rw [there]
            cases found : fs (start ++ [name]) with
            | none => rfl
            | some inode =>
                cases inode with
                | symlink target => exact absurd found (plain target)
                | dir => rfl
                | file => rfl
                | special => rfl
        | cons second rest =>
            obtain ⟨perm, found⟩ := dirs 1 (by simp)
            change fs (enterName start name) = _ at found
            rw [there] at found
            rw [found]
            exact onward

/-! ## What the calls open -/

section Opened

variable {refs : HostPath} {name : String} {host : RefHost}

/-- Where a call on a ref opens a file, or makes one. -/
structure OpensAt (fs : HostFs) (refs : HostPath) (name : String) (place : HostPath) : Prop where
  clean : '\x00' ∉ name.toList
  whole : ¬endsInSlash name = true
  resolved : resolve fs true (refPath refs name) = .ok place
  file : ¬IsDir fs place

theorem get_ref_file_cases :
    getRefFile refs name host = .ok none host ∨
      (∃ error, getRefFile refs name host = .error error host) ∨
      ∃ place, OpensAt host.fs refs name place ∧
        ((∃ target, getRefFile refs name host = .ok target (host.opens place)) ∨
          ∃ error, getRefFile refs name host = .error error (host.opens place)) := by
  by_cases nul : '\x00' ∈ name.toList
  · exact .inr (.inl ⟨_, by rw [getRefFile, if_pos nul]⟩)
  cases resolved : resolve host.fs true (refPath refs name) with
  | error error =>
      cases error with
      | notFound => exact .inl (by rw [getRefFile, if_neg nul, resolved])
      | _ => exact .inr (.inl ⟨_, by rw [getRefFile, if_neg nul, resolved]⟩)
  | ok place =>
      cases found : host.fs place with
      | none => exact .inl (by simp only [getRefFile, if_neg nul, resolved, found])
      | some inode =>
          cases inode with
          | dir perm =>
              exact .inr (.inl ⟨_, by simp only [getRefFile, if_neg nul, resolved, found]; rfl⟩)
          | symlink target =>
              exact .inr (.inl ⟨_, by simp only [getRefFile, if_neg nul, resolved, found]; rfl⟩)
          | special =>
              exact .inr (.inl ⟨_, by simp only [getRefFile, if_neg nul, resolved, found]; rfl⟩)
          | file perm content =>
              by_cases slashed : endsInSlash name = true
              · refine .inr (.inl ⟨.io OsError.notADirectory.display, ?_⟩)
                simp only [getRefFile, if_neg nul, resolved, found, if_pos slashed]
              · have file : ¬IsDir host.fs place := by
                  rintro ⟨other, here⟩
                  rw [found] at here
                  cases here
                refine .inr (.inr ⟨place, ⟨nul, slashed, resolved, file⟩, ?_⟩)
                cases parsed : parseRef content with
                | ok target =>
                    refine .inl ⟨target, ?_⟩
                    simp only [getRefFile, if_neg nul, resolved, found, if_neg slashed, parsed]
                | error error =>
                    refine .inr ⟨error, ?_⟩
                    simp only [getRefFile, if_neg nul, resolved, found, if_neg slashed, parsed]

theorem set_ref_file_cases (defaults : Defaults) (id : ObjectId) :
    (∃ error, setRefFile defaults refs name id host = .error error host) ∨
      ∃ place inode, OpensAt host.fs refs name place ∧
        setRefFile defaults refs name id host = .ok ()
          ({ host with fs := Function.update host.fs place (some inode) }.opens place) := by
  by_cases nul : '\x00' ∈ name.toList
  · exact .inl ⟨_, by rw [setRefFile, if_pos nul]⟩
  cases resolved : resolve host.fs true (refPath refs name) with
  | error error => exact .inl ⟨_, by rw [setRefFile, if_neg nul, resolved]⟩
  | ok place =>
      by_cases slashed : endsInSlash name = true
      · cases found : host.fs place with
        | none =>
            exact .inl ⟨_, by simp only [setRefFile, if_neg nul, resolved, if_pos slashed, found]; rfl⟩
        | some inode =>
            cases inode with
            | _ =>
                exact .inl ⟨_, by
                  simp only [setRefFile, if_neg nul, resolved, if_pos slashed, found]; rfl⟩
      · cases found : host.fs place with
        | none =>
            refine .inr ⟨place, .file defaults.file (refText id), ⟨nul, slashed, resolved, ?_⟩, ?_⟩
            · rintro ⟨perm, here⟩
              rw [found] at here
              cases here
            · simp only [setRefFile, if_neg nul, resolved, if_neg slashed, writeFile, bind,
                Except.bind, found]
        | some inode =>
            cases inode with
            | dir perm =>
                refine .inl ⟨.io OsError.isADirectory.display, ?_⟩
                simp only [setRefFile, if_neg nul, resolved, if_neg slashed, writeFile, bind,
                  Except.bind, found]
            | symlink target =>
                refine .inl ⟨.io OsError.notAFile.display, ?_⟩
                simp only [setRefFile, if_neg nul, resolved, if_neg slashed, writeFile, bind,
                  Except.bind, found]
            | special =>
                refine .inl ⟨.io OsError.notAFile.display, ?_⟩
                simp only [setRefFile, if_neg nul, resolved, if_neg slashed, writeFile, bind,
                  Except.bind, found]
            | file perm content =>
                refine .inr ⟨place, .file perm (refText id), ⟨nul, slashed, resolved, ?_⟩, ?_⟩
                · rintro ⟨other, here⟩
                  rw [found] at here
                  cases here
                · simp only [setRefFile, if_neg nul, resolved, if_neg slashed, writeFile, bind,
                    Except.bind, found]

end Opened

end HorizonOs.Lifestream
