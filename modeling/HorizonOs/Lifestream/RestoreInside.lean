import HorizonOs.Lifestream.RefFiles
import HorizonOs.Lifestream.Sample

/-!
# Where a restore writes

The names in a tree object are joined to the destination as they are, and what lies there already
is written through, links included. A restore whose every entry has a plain name, and no link in
the place of a file or a directory, changes nothing but what lies beneath its destination.
-/

namespace HorizonOs.Lifestream

open HorizonOs.Lib.ByteCodec HorizonOs.Lib.Text HorizonOs.Lib.Runs

set_option autoImplicit false

/-! ## Paths that go on leading where they led -/

/-- A path that leads to a directory. -/
structure LeadsTo (fs : HostFs) (path place : HostPath) : Prop where
  resolved : resolve fs true path = .ok place
  directory : IsDir fs place

/-- Directories stay directories, and links stay as they are. -/
structure KeepsWays (before after : HostFs) : Prop where
  dirs : ∀ place, IsDir before place → IsDir after place
  links : ∀ place target, before place = some (.symlink target) →
    after place = some (.symlink target)

/-- What lies beneath a place, itself apart. -/
def Beneath (top place : HostPath) : Prop := ∃ name rest, place = top ++ name :: rest

/-- Only what lies beneath the top has changed, and directories and links are what they were. -/
structure ChangedBeneath (top : HostPath) (before after : HostFs) : Prop where
  keeps : KeepsWays before after
  same : ∀ place, ¬Beneath top place → after place = before place

theorem ChangedBeneath.refl (top : HostPath) (fs : HostFs) : ChangedBeneath top fs fs :=
  ⟨⟨fun _ => id, fun _ _ => id⟩, fun _ _ => rfl⟩

theorem ChangedBeneath.trans {top : HostPath} {first second third : HostFs}
    (before : ChangedBeneath top first second) (after : ChangedBeneath top second third) :
    ChangedBeneath top first third where
  keeps := {
    dirs := fun place here => after.keeps.dirs place (before.keeps.dirs place here)
    links := fun place target here =>
      after.keeps.links place target (before.keeps.links place target here) }
  same place outside := (after.same place outside).trans (before.same place outside)

section Walks

variable {fs : HostFs} {place : HostPath}

/-- Behind a path that ends at a directory, the walk goes on from there. -/
theorem advance_append (path : List Name) (start : HostPath)
    (done : advance fs true start path = .done place) (directory : IsDir fs place) (follow : Bool)
    (name : Name) : advance fs follow start (path ++ [name]) = advance fs follow place [name] := by
  induction path generalizing start with
  | nil =>
      cases done
      rfl
  | cons part rest ih =>
      rw [advance] at done
      rw [List.cons_append, advance]
      by_cases single : part = dot
      · rw [if_pos single] at done ⊢
        exact ih start done
      by_cases double : part = dotdot
      · rw [if_neg single, if_pos double] at done ⊢
        exact ih start.dropLast done
      · rw [if_neg single, if_neg double] at done ⊢
        obtain ⟨perm, here⟩ := directory
        cases found : fs (start ++ [part]) with
        | none =>
            rw [found] at done
            dsimp only at done
            split_ifs at done
            cases done
            rw [found] at here
            cases here
        | some inode =>
            rw [found] at done
            cases inode with
            | dir => exact ih (start ++ [part]) done
            | symlink target =>
                dsimp only at done
                rw [if_neg (fun both => Bool.false_ne_true both.2.symm)] at done
                cases done
            | file =>
                dsimp only at done
                split_ifs at done
                cases done
                rw [found] at here
                cases here
            | special =>
                dsimp only at done
                split_ifs at done
                cases done
                rw [found] at here
                cases here

theorem advance_append_link (path : List Name) (start dir : HostPath) (target : Bytes)
    (rest : List Name) (linked : advance fs true start path = .link dir target rest)
    (follow : Bool) (name : Name) :
    advance fs follow start (path ++ [name]) = .link dir target (rest ++ [name]) := by
  induction path generalizing start with
  | nil => cases linked
  | cons part parts ih =>
      rw [advance] at linked
      rw [List.cons_append, advance]
      by_cases single : part = dot
      · rw [if_pos single] at linked ⊢
        exact ih start linked
      by_cases double : part = dotdot
      · rw [if_neg single, if_pos double] at linked ⊢
        exact ih start.dropLast linked
      · rw [if_neg single, if_neg double] at linked ⊢
        cases found : fs (start ++ [part]) with
        | none =>
            rw [found] at linked
            dsimp only at linked
            split_ifs at linked
        | some inode =>
            rw [found] at linked
            cases inode with
            | dir => exact ih (start ++ [part]) linked
            | symlink other =>
                dsimp only at linked ⊢
                rw [if_neg (fun both => Bool.false_ne_true both.2.symm)] at linked
                rw [if_neg (fun both => List.append_ne_nil_of_right_ne_nil _
                  (List.cons_ne_nil _ _) both.1)]
                cases linked
                rfl
            | file =>
                dsimp only at linked
                split_ifs at linked
            | special =>
                dsimp only at linked
                split_ifs at linked

theorem walk_append (links : Nat) (path : List Name) (start : HostPath)
    (walked : walk fs true links start path = .ok place) (directory : IsDir fs place)
    (follow : Bool) (name : Name) (plain : Plain name)
    (unlinked : follow = true → ∀ target, fs (place ++ [name]) ≠ some (.symlink target)) :
    walk fs follow links start (path ++ [name]) = .ok (place ++ [name]) := by
  have last : advance fs follow place [name] = .done (place ++ [name]) := by
    rw [advance, if_neg plain.dot, if_neg plain.dotdot]
    cases found : fs (place ++ [name]) with
    | none => rfl
    | some inode =>
        cases inode with
        | dir => rfl
        | file => rfl
        | special => rfl
        | symlink target =>
            cases follow with
            | true => exact absurd found (unlinked rfl target)
            | false => rfl
  induction links generalizing start path with
  | zero =>
      rw [walk] at walked
      cases leg : advance fs true start path with
      | done reached =>
          rw [leg] at walked
          cases walked
          rw [walk, advance_append path start leg directory, last]
      | link dir target rest =>
          rw [leg] at walked
          cases walked
      | failed error =>
          rw [leg] at walked
          cases walked
  | succ links ih =>
      rw [walk] at walked
      cases leg : advance fs true start path with
      | done reached =>
          rw [leg] at walked
          cases walked
          rw [walk, advance_append path start leg directory, last]
      | link dir target rest =>
          rw [leg] at walked
          have onward := ih _ _ walked
          rw [List.append_assoc] at onward
          rw [walk, advance_append_link path start dir target rest leg]
          exact onward
      | failed error =>
          rw [leg] at walked
          cases walked

end Walks

section Kept

variable {before after : HostFs} {place : HostPath}

theorem advance_kept (keeps : KeepsWays before after) (path : List Name) (start : HostPath) :
    (∀ reached, advance before true start path = .done reached → IsDir before reached →
        advance after true start path = .done reached) ∧
      ∀ dir target rest, advance before true start path = .link dir target rest →
        advance after true start path = .link dir target rest := by
  induction path generalizing start with
  | nil => exact ⟨fun _ done _ => done, fun _ _ _ linked => linked⟩
  | cons name rest ih =>
      simp only [advance]
      by_cases single : name = dot
      · simp only [if_pos single]
        exact ih start
      by_cases double : name = dotdot
      · simp only [if_neg single, if_pos double]
        exact ih start.dropLast
      simp only [if_neg single, if_neg double]
      cases found : before (start ++ [name]) with
      | none =>
          constructor
          · rintro reached done ⟨perm, here⟩
            dsimp only at done
            split_ifs at done
            cases done
            rw [found] at here
            cases here
          · intro dir target rest linked
            dsimp only at linked
            split_ifs at linked
      | some inode =>
          cases inode with
          | dir perm =>
              obtain ⟨perm', here⟩ := keeps.dirs _ ⟨perm, found⟩
              rw [here]
              exact ih (start ++ [name])
          | symlink target =>
              rw [keeps.links _ target found]
              exact ⟨fun reached done _ => done, fun _ _ _ linked => linked⟩
          | file perm content =>
              constructor
              · rintro reached done ⟨perm, here⟩
                dsimp only at done
                split_ifs at done
                cases done
                rw [found] at here
                cases here
              · intro dir target rest linked
                dsimp only at linked
                split_ifs at linked
          | special =>
              constructor
              · rintro reached done ⟨perm, here⟩
                dsimp only at done
                split_ifs at done
                cases done
                rw [found] at here
                cases here
              · intro dir target rest linked
                dsimp only at linked
                split_ifs at linked

theorem walk_kept (keeps : KeepsWays before after) (links : Nat) (path : List Name)
    (start : HostPath) (walked : walk before true links start path = .ok place)
    (directory : IsDir before place) : walk after true links start path = .ok place := by
  induction links generalizing start path with
  | zero =>
      rw [walk] at walked ⊢
      obtain ⟨ends, _⟩ := advance_kept keeps path start
      cases leg : advance before true start path with
      | done reached =>
          rw [leg] at walked
          cases walked
          rw [ends place leg directory]
      | link dir target rest =>
          rw [leg] at walked
          cases walked
      | failed error =>
          rw [leg] at walked
          cases walked
  | succ links ih =>
      rw [walk] at walked ⊢
      obtain ⟨ends, linked⟩ := advance_kept keeps path start
      cases leg : advance before true start path with
      | done reached =>
          rw [leg] at walked
          cases walked
          rw [ends place leg directory]
      | link dir target rest =>
          rw [leg] at walked
          rw [linked dir target rest leg]
          exact ih _ _ walked
      | failed error =>
          rw [leg] at walked
          cases walked

end Kept

section LeadsTo

variable {fs : HostFs} {path place : HostPath} {name : Name}

theorem LeadsTo.kept {after : HostFs} (leads : LeadsTo fs path place)
    (keeps : KeepsWays fs after) : LeadsTo after path place :=
  ⟨walk_kept keeps 40 path [] leads.resolved leads.directory, keeps.dirs place leads.directory⟩

theorem LeadsTo.resolve_child (leads : LeadsTo fs path place) (plain : Plain name) (follow : Bool)
    (unlinked : follow = true → ∀ target, fs (place ++ [name]) ≠ some (.symlink target)) :
    resolve fs follow (path ++ [name]) = .ok (place ++ [name]) :=
  walk_append 40 path [] leads.resolved leads.directory follow name plain unlinked

theorem LeadsTo.child (leads : LeadsTo fs path place) (plain : Plain name)
    (directory : IsDir fs (place ++ [name])) : LeadsTo fs (path ++ [name]) (place ++ [name]) := by
  refine ⟨leads.resolve_child plain true fun _ target linked => ?_, directory⟩
  obtain ⟨perm, here⟩ := directory
  rw [linked] at here
  cases here

end LeadsTo

/-! ## The calls -/

/-- An inode set where there was a file or nothing, or a directory set where there was one. -/
theorem changed_by_update {top place : HostPath} {fs : HostFs} {inode : Inode}
    (inside : Beneath top place) (dirs : IsDir fs place → ∃ perm, inode = .dir perm)
    (unlinked : ∀ target, fs place ≠ some (.symlink target)) :
    ChangedBeneath top fs (Function.update fs place (some inode)) where
  keeps := {
    dirs := fun other here => by
      by_cases same : other = place
      · rw [same] at here
        obtain ⟨perm, directory⟩ := dirs here
        exact ⟨perm, by rw [same, Function.update_self, directory]⟩
      · obtain ⟨perm, found⟩ := here
        exact ⟨perm, by rw [Function.update_of_ne same, found]⟩
    links := fun other target here => by
      have apart : other ≠ place := fun same => unlinked target (same ▸ here)
      rw [Function.update_of_ne apart, here] }
  same other outside := Function.update_of_ne (fun equal => outside (by rwa [equal])) _ _

theorem beneath_child {top place : HostPath} (under : top <+: place) (name : Name) :
    Beneath top (place ++ [name]) := by
  obtain ⟨names, rfl⟩ := under
  cases names with
  | nil => exact ⟨name, [], by rw [List.append_nil]⟩
  | cons first rest => exact ⟨first, rest ++ [name], by rw [List.append_assoc]; rfl⟩

section Calls

variable {fs : HostFs} {top path place : HostPath} {name : Name} (leads : LeadsTo fs path place)
  (under : top <+: place) (plain : Plain name)

include leads under plain

theorem write_inside (defaults : Defaults) (data : Bytes) {after : HostFs}
    (unlinked : ∀ target, fs (place ++ [name]) ≠ some (.symlink target))
    (wrote : writeFile defaults fs (path ++ [name]) data = .ok after) :
    ChangedBeneath top fs after ∧ ∀ target, after (place ++ [name]) ≠ some (.symlink target) := by
  have resolved := leads.resolve_child plain true fun _ => unlinked
  simp only [writeFile, resolved, bind, Except.bind] at wrote
  have put : ∀ perm, (fs (place ++ [name]) = none ∨
      ∃ old content, fs (place ++ [name]) = some (.file old content)) →
      after = Function.update fs (place ++ [name]) (some (.file perm data)) →
        ChangedBeneath top fs after ∧
          ∀ target, after (place ++ [name]) ≠ some (.symlink target) := by
    rintro perm free rfl
    refine ⟨changed_by_update (beneath_child under name) ?_ unlinked, fun target => ?_⟩
    · rintro ⟨other, here⟩
      rcases free with vacant | ⟨old, content, found⟩
      · rw [vacant] at here
        cases here
      · rw [found] at here
        cases here
    · rw [Function.update_self]
      intro same
      cases same
  cases found : fs (place ++ [name]) with
  | none =>
      rw [found] at wrote
      exact put defaults.file (.inl found) (Except.ok.inj wrote).symm
  | some inode =>
      rw [found] at wrote
      cases inode with
      | file perm old =>
          exact put perm (.inr ⟨perm, old, found⟩) (Except.ok.inj wrote).symm
      | dir => cases wrote
      | symlink => cases wrote
      | special => cases wrote

theorem permissions_inside (perm : Perm) {after : HostFs}
    (unlinked : ∀ target, fs (place ++ [name]) ≠ some (.symlink target))
    (changed : setPermissions fs (path ++ [name]) perm = .ok after) :
    ChangedBeneath top fs after := by
  have resolved := leads.resolve_child plain true fun _ => unlinked
  simp only [setPermissions, resolved, bind, Except.bind] at changed
  have inside := beneath_child under name
  cases found : fs (place ++ [name]) with
  | none =>
      rw [found] at changed
      cases changed
  | some inode =>
      rw [found] at changed
      cases inode with
      | file old data =>
          cases changed
          refine changed_by_update inside ?_ unlinked
          rintro ⟨other, here⟩
          rw [found] at here
          cases here
      | dir old =>
          cases changed
          exact changed_by_update inside (fun _ => ⟨perm, rfl⟩) unlinked
      | symlink => cases changed
      | special => cases changed

theorem symlink_inside (target : Bytes) {after : HostFs}
    (made : symlinkTo fs target (path ++ [name]) = .ok after) : ChangedBeneath top fs after := by
  have resolved := leads.resolve_child plain false fun holds => absurd holds Bool.false_ne_true
  simp only [symlinkTo, resolved, bind, Except.bind] at made
  split_ifs at made
  cases found : fs (place ++ [name]) with
  | none =>
      rw [found] at made
      cases made
      refine changed_by_update (beneath_child under name) ?_ ?_
      · rintro ⟨perm, here⟩
        rw [found] at here
        cases here
      · intro other here
        rw [found] at here
        cases here
  | some inode =>
      rw [found] at made
      cases made

/-- `create_dir_all` makes one directory there, finds it made, or fails and makes none. -/
theorem create_inside (defaults : Defaults)
    (unlinked : ∀ target, fs (place ++ [name]) ≠ some (.symlink target)) :
    (∃ error, createDirAll defaults fs (path ++ [name]) = (fs, .error error)) ∨
      ∃ after, createDirAll defaults fs (path ++ [name]) = (after, .ok ()) ∧
        ChangedBeneath top fs after ∧ LeadsTo after (path ++ [name]) (place ++ [name]) := by
  have back : (name :: path.reverse).reverse = path ++ [name] := by simp
  have unfollowed := leads.resolve_child plain false fun holds => absurd holds Bool.false_ne_true
  have followed := leads.resolve_child plain true fun _ => unlinked
  rw [createDirAll, List.reverse_append, List.reverse_singleton, List.singleton_append]
  simp only [createDirs, back, mkdir, unfollowed, bind, Except.bind]
  cases found : fs (place ++ [name]) with
  | none =>
      have changed : ChangedBeneath top fs
          (Function.update fs (place ++ [name]) (some (.dir defaults.dir))) :=
        changed_by_update (beneath_child under name) (fun _ => ⟨_, rfl⟩) unlinked
      refine .inr ⟨_, rfl, changed, (leads.kept changed.keeps).child plain ⟨defaults.dir, ?_⟩⟩
      rw [Function.update_self]
  | some inode =>
      simp only [isDir, followed, found]
      cases inode with
      | dir perm => exact .inr ⟨fs, rfl, .refl top fs, leads.child plain ⟨perm, found⟩⟩
      | file => exact .inl ⟨_, rfl⟩
      | symlink => exact .inl ⟨_, rfl⟩
      | special => exact .inl ⟨_, rfl⟩

end Calls

/-! ## A restore -/

section Restore

variable (ls : Lifestream) (device : Device) (defaults : Defaults)

/-- An entry whose name is that of a child, and that no link stands in the place of, unless it is
a link itself: a link is made where nothing is yet. -/
def EntryStays (fs : HostFs) (place : HostPath) (e : TreeEntry) : Prop :=
  Plain (utf8 e.name) ∧
    (e.kind ≠ .symlink → ∀ target, fs (place ++ [utf8 e.name]) ≠ some (.symlink target))

/-- Every entry stays, as the file system is when its turn comes; subtrees are asked for more. -/
def EntriesStay (restore : ObjectId → HostPath → HostM Unit)
    (stays : ObjectId → HostPath → HostPath → HostFs → Prop) (dest place : HostPath) :
    List TreeEntry → HostFs → Prop
  | [], _ => True
  | e :: entries, fs =>
      EntryStays fs place e ∧
        (e.kind = .tree → stays e.id (joinPath dest (utf8 e.name)) (place ++ [utf8 e.name]) fs) ∧
        ∀ after, restoreEntry ls device defaults restore dest e fs = .ok () after →
          EntriesStay restore stays dest place entries after

/-- Every entry that a restore of the tree comes to stays. -/
def TreeStays : Nat → ObjectId → HostPath → HostPath → HostFs → Prop
  | 0, _, _, _, _ => True
  | depth + 1, tree, dest, place, fs =>
      ∀ made entries, createDirAll defaults fs dest = (made, .ok ()) →
        ls.get device tree = .ok (.tree entries) →
          EntriesStay ls device defaults (ls.restoreTree device defaults depth)
            (TreeStays depth) dest place entries made

variable {ls device defaults}

theorem set_mode_inside {fs : HostFs} {top path place : HostPath} {name : Name}
    (leads : LeadsTo fs path place) (under : top <+: place) (plain : Plain name) (mode : UInt32)
    (unlinked : ∀ target, fs (place ++ [name]) ≠ some (.symlink target)) :
    ∃ after, setMode (path ++ [name]) mode fs = .ok () after ∧ ChangedBeneath top fs after := by
  rw [setMode]
  cases changed : setPermissions fs (path ++ [name]) (permOf mode) with
  | ok after => exact ⟨after, rfl, permissions_inside leads under plain _ unlinked changed⟩
  | error error => exact ⟨fs, rfl, .refl top fs⟩

/-- A restore of a subtree into a child of a directory that lies under the top. -/
def ChildInside (ls : Lifestream) (device : Device) (defaults : Defaults) (top : HostPath)
    (depth : Nat) : Prop :=
  ∀ tree dest place name fs, LeadsTo fs dest place → top <+: place → Plain name →
    (∀ target, fs (place ++ [name]) ≠ some (.symlink target)) →
      TreeStays ls device defaults depth tree (dest ++ [name]) (place ++ [name]) fs →
        ChangedBeneath top fs
            (finalState (ls.restoreTree device defaults depth tree (dest ++ [name]) fs)) ∧
          ∀ after, ls.restoreTree device defaults depth tree (dest ++ [name]) fs = .ok () after →
            IsDir after (place ++ [name])

theorem restore_entry_inside {depth : Nat} {top dest place : HostPath} {fs : HostFs}
    {e : TreeEntry} (inner : ChildInside ls device defaults top depth)
    (leads : LeadsTo fs dest place) (under : top <+: place) (stays : EntryStays fs place e)
    (deeper : e.kind = .tree → TreeStays ls device defaults depth e.id
      (joinPath dest (utf8 e.name)) (place ++ [utf8 e.name]) fs) :
    ChangedBeneath top fs (finalState (restoreEntry ls device defaults
      (ls.restoreTree device defaults depth) dest e fs)) := by
  obtain ⟨plain, unlinked⟩ := stays
  have joined := join_plain dest (utf8 e.name) plain
  rw [restoreEntry, joined]
  rw [joined] at deeper
  cases kind : e.kind with
  | tree =>
      rw [kind] at unlinked
      obtain ⟨changed, made⟩ := inner e.id dest place (utf8 e.name) fs leads under plain
        (unlinked nofun) (deeper kind)
      dsimp only
      rw [bind_apply]
      cases restored : ls.restoreTree device defaults depth e.id (dest ++ [utf8 e.name]) fs with
      | error error after =>
          rw [restored] at changed
          exact changed
      | ok value after =>
          rw [restored, final_state_ok] at changed
          obtain ⟨perm, here⟩ := made after restored
          obtain ⟨later, set, more⟩ := set_mode_inside (leads.kept changed.keeps) under plain e.mode
            fun target => by rw [here]; exact nofun
          dsimp only
          rw [set]
          exact changed.trans more
  | file =>
      rw [kind] at unlinked
      dsimp only
      rw [bind_apply]
      cases ls.readBytes device e.id with
      | error error => exact .refl top fs
      | ok data =>
          rw [fromStore]
          dsimp only
          rw [bind_apply, hostCall]
          cases wrote : writeFile defaults fs (dest ++ [utf8 e.name]) data with
          | error error => exact .refl top fs
          | ok after =>
              obtain ⟨changed, free⟩ :=
                write_inside leads under plain defaults data (unlinked nofun) wrote
              obtain ⟨later, set, more⟩ :=
                set_mode_inside (leads.kept changed.keeps) under plain e.mode free
              dsimp only
              rw [set]
              exact changed.trans more
  | symlink =>
      dsimp only
      rw [bind_apply]
      cases ls.readBytes device e.id with
      | error error => exact .refl top fs
      | ok target =>
          rw [fromStore]
          dsimp only
          rw [hostCall]
          cases made : symlinkTo fs target (dest ++ [utf8 e.name]) with
          | error error => exact .refl top fs
          | ok after => exact symlink_inside leads under plain target made

theorem restore_entries_inside {depth : Nat} {top dest place : HostPath}
    (inner : ChildInside ls device defaults top depth) (under : top <+: place)
    (entries : List TreeEntry) (fs : HostFs) (leads : LeadsTo fs dest place)
    (stays : EntriesStay ls device defaults (ls.restoreTree device defaults depth)
      (TreeStays ls device defaults depth) dest place entries fs) :
    ChangedBeneath top fs (finalState (restoreEntries ls device defaults
      (ls.restoreTree device defaults depth) dest entries fs)) := by
  induction entries generalizing fs with
  | nil => exact .refl top fs
  | cons e entries ih =>
      obtain ⟨first, deeper, rest⟩ := stays
      have changed := restore_entry_inside inner leads under first deeper
      rw [restoreEntries, bind_apply]
      cases restored : restoreEntry ls device defaults (ls.restoreTree device defaults depth)
        dest e fs with
      | error error after =>
          rw [restored] at changed
          exact changed
      | ok value after =>
          rw [restored] at changed
          exact changed.trans (ih after (leads.kept changed.keeps) (rest after restored))

/-- What is done once the destination of a tree is made. -/
theorem restore_made_inside {depth : Nat} {top dest place : HostPath} {fs made : HostFs}
    {tree : ObjectId} (inner : ChildInside ls device defaults top depth)
    (created : createDirAll defaults fs dest = (made, .ok ())) (leads : LeadsTo made dest place)
    (under : top <+: place) (stays : TreeStays ls device defaults (depth + 1) tree dest place fs) :
    ChangedBeneath top made
      (finalState (ls.restoreTree device defaults (depth + 1) tree dest fs)) := by
  have on_host : createDirAllOn defaults dest fs = .ok () made := by rw [createDirAllOn, created]
  rw [Lifestream.restoreTree, bind_apply, on_host]
  dsimp only
  rw [bind_apply]
  cases got : ls.get device tree with
  | error error => exact .refl top made
  | ok object =>
      cases object with
      | tree entries =>
          exact restore_entries_inside inner under entries made leads
            (stays made entries created got)
      | _ => exact .refl top made

theorem child_inside (top : HostPath) (depth : Nat) : ChildInside ls device defaults top depth := by
  induction depth with
  | zero =>
      intro tree dest place name fs leads under plain unlinked stays
      exact ⟨.refl top fs, nofun⟩
  | succ depth ih =>
      intro tree dest place name fs leads under plain unlinked stays
      rcases create_inside leads under plain defaults unlinked with
        ⟨error, failed⟩ | ⟨made, created, changed, there⟩
      · have on_host : createDirAllOn defaults (dest ++ [name]) fs =
            .error (.io error.display) fs := by rw [createDirAllOn, failed]
        rw [Lifestream.restoreTree, bind_apply, on_host]
        exact ⟨.refl top fs, nofun⟩
      · have more := restore_made_inside ih created there
          (under.trans (List.prefix_append _ _)) stays
        refine ⟨changed.trans more, fun after restored => ?_⟩
        rw [restored] at more
        exact more.keeps.dirs _ there.directory

end Restore

/-- A restore whose every entry stays changes nothing but what lies beneath its destination, at
whatever depth, once that is made, and whether it succeeds or fails on the way. -/
theorem restore_stays_inside (ls : Lifestream) (device : Device) (defaults : Defaults)
    (depth : Nat) (tree : ObjectId) (dest place : HostPath) (fs made : HostFs)
    (created : createDirAll defaults fs dest = (made, .ok ())) (leads : LeadsTo made dest place)
    (stays : TreeStays ls device defaults (depth + 1) tree dest place fs) :
    ∀ spot, ¬Beneath place spot →
      finalState (ls.restoreTree device defaults (depth + 1) tree dest fs) spot = made spot :=
  (restore_made_inside (child_inside place depth) created leads (List.prefix_refl place) stays).same

/-! ### A tree of one empty directory -/

def outHost : HostFs := fun path =>
  if path = [] ∨ path = [utf8 "out"] then some (.dir 0o755) else none

def emptyTreeId : ObjectId := sampleStore.store.idOf (Object.tree []).encode

/-- The tree that holds an empty one under a name of one's choice. -/
def nestedTree (name : String) : Object := .tree [⟨name, .tree, emptyTreeId, dirMode 0o755⟩]

def nestedTreeId (name : String) : ObjectId := sampleStore.store.idOf (nestedTree name).encode

def nestedDevice (name : String) : Device :=
  finalState ((do
    let _ ← sampleStore.put (.tree [])
    sampleStore.put (nestedTree name)) Device.fresh)

def outDefaults : Defaults := ⟨0o644, 0o755⟩

theorem out_directories : Directories outHost [utf8 "out"] where
  plain name member := by
    rw [List.mem_singleton.mp member]
    exact ⟨by decide, by decide, by decide, by decide⟩
  dirs place above := by
    have among : place <+: [] ++ [utf8 "out"] := above
    rcases List.prefix_concat_iff.mp among with whole | shorter
    · exact ⟨0o755, if_pos (.inr whole)⟩
    · exact ⟨0o755, if_pos (.inl (List.prefix_nil.mp shorter))⟩

theorem out_created : createDirAll outDefaults outHost [utf8 "out"] = (outHost, .ok ()) :=
  create_existing outDefaults out_directories

theorem out_leads : LeadsTo outHost [utf8 "out"] [utf8 "out"] :=
  ⟨resolve_directory out_directories true, out_directories.dirs _ (List.prefix_refl _)⟩

theorem nested_stays : TreeStays sampleStore (nestedDevice "notes") outDefaults 2
    (nestedTreeId "notes") [utf8 "out"] [utf8 "out"] outHost := by
  intro made entries created got
  rw [out_created] at created
  cases created
  have tree : sampleStore.get (nestedDevice "notes") (nestedTreeId "notes") =
      .ok (nestedTree "notes") := by decide +kernel
  rw [tree] at got
  cases got
  refine ⟨⟨⟨by decide, by decide, by decide, by decide⟩, fun _ target => ?_⟩, ?_, fun _ _ => trivial⟩
  · rw [outHost, if_neg (by decide)]
    exact nofun
  · intro _ made entries _ got
    have empty : sampleStore.get (nestedDevice "notes") emptyTreeId = .ok (.tree []) := by
      decide +kernel
    rw [empty] at got
    cases got
    exact trivial

theorem escaped_outside : ¬Beneath [utf8 "out"] [utf8 "escaped"] := by
  rintro ⟨name, rest, same⟩
  have lengths := congrArg List.length same
  simp at lengths

theorem nested_restored_inside :
    finalState (sampleStore.restoreTree (nestedDevice "notes") outDefaults 2
      (nestedTreeId "notes") [utf8 "out"] outHost) [utf8 "escaped"] = outHost [utf8 "escaped"] :=
  restore_stays_inside sampleStore (nestedDevice "notes") outDefaults 1 (nestedTreeId "notes")
    [utf8 "out"] [utf8 "out"] outHost outHost out_created out_leads nested_stays [utf8 "escaped"]
    escaped_outside

/-- A name that leads out of the destination is followed there. -/
theorem nested_restored_outside : ¬∀ (ls : Lifestream) (device : Device) (defaults : Defaults)
    (depth : Nat) (tree : ObjectId) (entries : List TreeEntry) (dest place : HostPath)
    (fs made : HostFs), ls.get device tree = .ok (.tree entries) →
      (∀ e ∈ entries, ∃ object, ls.get device e.id = .ok object) →
        createDirAll defaults fs dest = (made, .ok ()) → LeadsTo made dest place →
          ∀ spot, ¬Beneath place spot →
            finalState (ls.restoreTree device defaults (depth + 1) tree dest fs) spot =
              made spot := by
  intro inside
  have same := inside sampleStore (nestedDevice "../escaped") outDefaults 1
    (nestedTreeId "../escaped") [⟨"../escaped", .tree, emptyTreeId, dirMode 0o755⟩]
    [utf8 "out"] [utf8 "out"] outHost outHost (by decide +kernel)
    (fun e member => ⟨.tree [], by rw [List.mem_singleton.mp member]; decide +kernel⟩)
    out_created out_leads [utf8 "escaped"] escaped_outside
  have moved : finalState (sampleStore.restoreTree (nestedDevice "../escaped") outDefaults 2
      (nestedTreeId "../escaped") [utf8 "out"] outHost) [utf8 "escaped"] ≠
        outHost [utf8 "escaped"] := by decide +kernel
  exact moved same

end HorizonOs.Lifestream
