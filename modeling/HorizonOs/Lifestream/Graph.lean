import HorizonOs.Lib.Search
import HorizonOs.Lifestream.Content

/-!
# The object graph

What lies under each id of a disk, the ids it points at, and which of them are
present. `contents` is what the disk holds, whether or not the operating system
lets it be read just now; two disks of one identity hold the same thing under
the same id, unless plaintexts collide.
-/

namespace HorizonOs.Lifestream

open HorizonOs.Lib.ByteCodec HorizonOs.Lib.Runs HorizonOs.Lib.Search

set_option autoImplicit false

/-- As many ids as there are. -/
@[irreducible] def idCount : Nat := 256 ^ 32

theorem ids_few (ids : List ObjectId) (distinct : ids.Nodup) : ids.length ≤ idCount := by
  unfold idCount
  exact fixed_bytes_few ids distinct

/-- The object a record stands for under this id. -/
def objectIn (ls : Lifestream) (id : ObjectId) (record : Bytes) : Except Error Object := do
  let plaintext ← ls.store.verified id record
  Object.decode plaintext

/-- The object the disk holds under this id. -/
def contents (ls : Lifestream) (device : Device) (id : ObjectId) : Option Object :=
  match device.objects.lookup id with
  | none => none
  | some record => (objectIn ls id record).toOption

/-- The ids the object under this id points at. -/
def edges (ls : Lifestream) (device : Device) (id : ObjectId) : List ObjectId :=
  match ls.contents device id with
  | some object => object.links
  | none => []

/-- The links of what was read; an object that was not has none. -/
def readLinks : Except Error Object → List ObjectId
  | .ok object => object.links
  | .error _ => []

/-- The parents of the generation under this id. -/
def parentsOf (ls : Lifestream) (device : Device) (id : ObjectId) : List ObjectId :=
  match ls.contents device id with
  | some (.generation g) => g.parents
  | _ => []

/-- A generation's history leads from the one to the other. -/
def Ancestor (ls : Lifestream) (device : Device) (ancestor descendant : ObjectId) : Prop :=
  Reaches (ls.parentsOf device) descendant ancestor

/-- Everything that the id leads to, itself included, is on the disk. -/
def Complete (ls : Lifestream) (device : Device) (id : ObjectId) : Prop :=
  ∀ reached, Reaches (ls.edges device) id reached → device.has reached = true

/-- Every ref of the disk is complete. -/
def ClosureComplete (ls : Lifestream) (device : Device) : Prop :=
  ∀ name target, device.getRef name = .ok (some target) → Complete ls device target

/-- Everything that the id leads to, itself included, is there and opens. -/
def Whole (ls : Lifestream) (device : Device) (id : ObjectId) : Prop :=
  ∀ reached, Reaches (ls.edges device) id reached →
    ∃ object, ls.contents device reached = some object

/-- Every record on the disk opens to a plaintext of its address. -/
def Valid (ls : Lifestream) (device : Device) : Prop :=
  ∀ id record, device.objects.lookup id = some record →
    ∃ plaintext, ls.store.verified id record = .ok plaintext

/-! ## Reading -/

theorem get_ok (ls : Lifestream) (device : Device) (id : ObjectId) (object : Object)
    (got : ls.get device id = .ok object) :
    ls.contents device id = some object ∧ device.has id = true := by
  simp only [Lifestream.get, ObjectStore.get, Device.readRecord] at got
  cases found : device.objects.lookup id with
  | none =>
      rw [found] at got
      cases got
  | some record =>
      rw [found] at got
      cases readable : device.unreadable id with
      | some message =>
          rw [readable] at got
          cases got
      | none =>
          rw [readable] at got
          change objectIn ls id record = .ok object at got
          constructor
          · simp only [contents, found, got, Except.toOption]
          · simp only [Device.has, found, Option.isSome_some]

theorem contents_present {ls : Lifestream} {device : Device} {id : ObjectId} {object : Object}
    (held : ls.contents device id = some object) : device.has id = true := by
  unfold contents at held
  cases found : device.objects.lookup id with
  | none =>
      rw [found] at held
      cases held
  | some record => simp only [Device.has, found, Option.isSome_some]

/-- What the disk holds and lets be read is what is read. -/
theorem Whole.complete {ls : Lifestream} {device : Device} {id : ObjectId}
    (whole : Whole ls device id) : Complete ls device id := by
  intro reached path
  obtain ⟨object, held⟩ := whole reached path
  exact contents_present held

theorem get_of_contents (ls : Lifestream) (device : Device) (id : ObjectId) (object : Object)
    (held : ls.contents device id = some object) (readable : device.unreadable id = none) :
    ls.get device id = .ok object := by
  unfold contents at held
  cases found : device.objects.lookup id with
  | none =>
      rw [found] at held
      cases held
  | some record =>
      simp only [found] at held
      have opened : objectIn ls id record = .ok object := by
        cases outcome : objectIn ls id record with
        | error error =>
            rw [outcome] at held
            cases held
        | ok other =>
            rw [outcome] at held
            cases held
            rfl
      simp only [Lifestream.get, ObjectStore.get, Device.readRecord, found, readable]
      exact opened

/-- Only an object that is not there is reported as not found. -/
theorem get_not_found (ls : Lifestream) (device : Device) (id : ObjectId) (text : String)
    (got : ls.get device id = .error (.notFound text)) : device.has id = false := by
  simp only [Lifestream.get, ObjectStore.get, Device.readRecord] at got
  cases found : device.objects.lookup id with
  | none => simp only [Device.has, found, Option.isSome_none]
  | some record =>
      rw [found] at got
      cases readable : device.unreadable id with
      | some message =>
          rw [readable] at got
          cases got
      | none =>
          rw [readable] at got
          change objectIn ls id record = .error (.notFound text) at got
          simp only [objectIn, bind, Except.bind] at got
          cases opened : ls.store.verified id record with
          | error error =>
              rw [opened] at got
              cases got
              rcases verified_error opened with cipher | ⟨message, form⟩
              · cases cipher
              · cases form
          | ok plaintext =>
              rw [opened] at got
              obtain ⟨message, form⟩ := decode_error_corrupt plaintext _ got
              cases form

/-- On a disk that reads, reading an object finds its edges. -/
theorem links_of_get (ls : Lifestream) (device : Device) (id : ObjectId)
    (readable : device.unreadable id = none) :
    readLinks (ls.get device id) = ls.edges device id := by
  unfold edges
  cases held : ls.contents device id with
  | some object =>
      rw [get_of_contents ls device id object held readable]
      rfl
  | none =>
      cases got : ls.get device id with
      | error error => rfl
      | ok object =>
          rw [(get_ok ls device id object got).1] at held
          cases held

/-! ## Growth -/

theorem contents_congr (ls : Lifestream) {before after : Device} {id : ObjectId}
    (same : after.objects.lookup id = before.objects.lookup id) :
    ls.contents after id = ls.contents before id := by
  unfold contents
  rw [same]

theorem edges_congr (ls : Lifestream) {before after : Device} {id : ObjectId}
    (same : after.objects.lookup id = before.objects.lookup id) :
    ls.edges after id = ls.edges before id := by
  unfold edges
  rw [contents_congr ls same]

/-- What is present stays as it is on a disk that keeps its objects. -/
theorem lookup_kept {before after : Device} {id : ObjectId} (present : before.has id = true)
    (kept : ∀ id record, before.objects.lookup id = some record →
      after.objects.lookup id = some record) :
    after.objects.lookup id = before.objects.lookup id := by
  obtain ⟨record, found⟩ := Option.isSome_iff_exists.mp present
  rw [found]
  exact kept id record found

theorem contents_kept {ls : Lifestream} {before after : Device} {id : ObjectId} {object : Object}
    (held : ls.contents before id = some object)
    (kept : ∀ id record, before.objects.lookup id = some record →
      after.objects.lookup id = some record) : ls.contents after id = some object := by
  unfold contents at held ⊢
  cases found : before.objects.lookup id with
  | none =>
      rw [found] at held
      cases held
  | some record =>
      rw [found] at held
      rw [kept id record found]
      exact held

theorem edges_kept (ls : Lifestream) {before after : Device}
    (kept : ∀ id record, before.objects.lookup id = some record →
      after.objects.lookup id = some record) (id : ObjectId) :
    ls.edges before id ⊆ ls.edges after id := by
  cases held : ls.contents before id with
  | none => simp [edges, held]
  | some object => simp [edges, held, contents_kept held kept]

theorem parents_kept (ls : Lifestream) {before after : Device}
    (kept : ∀ id record, before.objects.lookup id = some record →
      after.objects.lookup id = some record) (id : ObjectId) :
    ls.parentsOf before id ⊆ ls.parentsOf after id := by
  cases held : ls.contents before id with
  | none => simp [parentsOf, held]
  | some object => simp [parentsOf, held, contents_kept held kept]

theorem Ancestor.kept {ls : Lifestream} {before after : Device} {ancestor descendant : ObjectId}
    (path : Ancestor ls before ancestor descendant)
    (kept : ∀ id record, before.objects.lookup id = some record →
      after.objects.lookup id = some record) : Ancestor ls after ancestor descendant :=
  Reaches.imp path fun id _ => parents_kept ls kept id

/-- A parent is a link. -/
theorem parents_are_edges (ls : Lifestream) (device : Device) (id : ObjectId) :
    ls.parentsOf device id ⊆ ls.edges device id := by
  intro parent member
  unfold parentsOf at member
  unfold edges
  split at member
  case h_1 g held =>
    rw [held]
    exact List.mem_cons_of_mem _ member
  case h_2 => cases member

theorem listed_iff (device : Device) (id : ObjectId) :
    id ∈ device.listIds ↔ device.has id = true :=
  AList.mem_keys.trans AList.lookup_isSome.symm

/-! ## The refs of a disk -/

/-- Look each name up in turn; one whose file names no id is left out. -/
def Device.refsAmong (device : Device) : List String → Except Error (List (String × ObjectId))
  | [] => .ok []
  | name :: rest => do
      let target ← device.getRef name
      let others ← device.refsAmong rest
      match target with
      | some id => .ok ((name, id) :: others)
      | none => .ok others

def Device.readRefs (device : Device) : Except Error (List (String × ObjectId)) :=
  device.refsAmong device.listRefs

theorem refs_among_mem (device : Device) (names : List String) (refs : List (String × ObjectId))
    (read : device.refsAmong names = .ok refs) (name : String) (id : ObjectId) :
    (name, id) ∈ refs ↔ name ∈ names ∧ device.getRef name = .ok (some id) := by
  induction names generalizing refs with
  | nil =>
      cases read
      simp
  | cons first rest ih =>
      simp only [Device.refsAmong, bind, Except.bind] at read
      cases target : device.getRef first with
      | error error =>
          rw [target] at read
          cases read
      | ok found =>
          simp only [target] at read
          cases others : device.refsAmong rest with
          | error error =>
              rw [others] at read
              cases read
          | ok tail =>
              simp only [others] at read
              have below := ih tail others
              cases found with
              | none =>
                  cases read
                  rw [below, List.mem_cons]
                  constructor
                  · rintro ⟨member, named⟩
                    exact ⟨.inr member, named⟩
                  · rintro ⟨rfl | member, named⟩
                    · rw [target] at named
                      cases named
                    · exact ⟨member, named⟩
              | some other =>
                  cases read
                  rw [List.mem_cons, below, List.mem_cons]
                  constructor
                  · rintro (same | ⟨member, named⟩)
                    · cases same
                      exact ⟨.inl rfl, target⟩
                    · exact ⟨.inr member, named⟩
                  · rintro ⟨rfl | member, named⟩
                    · rw [target] at named
                      cases named
                      exact .inl rfl
                    · exact .inr ⟨member, named⟩

/-- No name is read twice. -/
theorem refs_among_sublist (device : Device) (names : List String)
    (refs : List (String × ObjectId)) (read : device.refsAmong names = .ok refs) :
    (refs.map Prod.fst).Sublist names := by
  induction names generalizing refs with
  | nil =>
      cases read
      exact List.Sublist.slnil
  | cons first rest ih =>
      simp only [Device.refsAmong, bind, Except.bind] at read
      split at read
      · cases read
      · split at read
        · cases read
        · rename_i tail others
          have below := ih tail others
          split at read
          · cases read
            exact below.cons_cons first
          · cases read
            exact below.cons first

theorem read_refs_nodup (device : Device) (refs : List (String × ObjectId))
    (read : device.readRefs = .ok refs) : (refs.map Prod.fst).Nodup :=
  (refs_among_sublist device device.listRefs refs read).nodup device.refs.nodupKeys

/-- Reading the refs of a disk finds the names that have a target. -/
theorem read_refs_mem (device : Device) (refs : List (String × ObjectId))
    (read : device.readRefs = .ok refs) (name : String) (id : ObjectId) :
    (name, id) ∈ refs ↔ device.getRef name = .ok (some id) := by
  rw [refs_among_mem device device.listRefs refs read]
  constructor
  · exact And.right
  · intro named
    refine ⟨?_, named⟩
    apply AList.mem_keys.mp
    rw [← AList.lookup_isSome]
    unfold Device.getRef at named
    cases found : device.refs.lookup name with
    | none =>
        rw [found] at named
        cases named
    | some content => rfl

/-- Once the refs of a disk were read, none of them fails to. -/
theorem read_refs_total (device : Device) (refs : List (String × ObjectId))
    (read : device.readRefs = .ok refs) (name : String) :
    ∃ target, device.getRef name = .ok target := by
  have listed : ∀ names refs, device.refsAmong names = .ok refs → ∀ name ∈ names,
      ∃ target, device.getRef name = .ok target := by
    intro names
    induction names with
    | nil => exact fun _ _ name member => absurd member List.not_mem_nil
    | cons first rest ih =>
        intro refs read name member
        simp only [Device.refsAmong, bind, Except.bind] at read
        split at read
        · cases read
        · rename_i target found
          split at read
          · cases read
          · rename_i tail others
            rcases List.mem_cons.mp member with rfl | later
            · exact ⟨target, found⟩
            · exact ih tail others name later
  by_cases member : name ∈ device.listRefs
  · exact listed device.listRefs refs read name member
  · have absent : device.refs.lookup name = none := by
      rw [← Option.not_isSome_iff_eq_none, AList.lookup_isSome]
      exact fun present => member (AList.mem_keys.mp present)
    refine ⟨none, ?_⟩
    simp only [Device.getRef, absent]

theorem get_ref_congr {before after : Device} {name : String}
    (same : after.refs.lookup name = before.refs.lookup name)
    (outlook : after.unreadableRef = before.unreadableRef) :
    after.getRef name = before.getRef name := by
  unfold Device.getRef
  rw [same, outlook]

/-- What a ref names is what its file's text says. -/
theorem get_ref_names {device : Device} {name : String} {content : Bytes} {target : ObjectId}
    (found : device.refs.lookup name = some content)
    (named : device.getRef name = .ok (some target)) : parseRef content = .ok (some target) := by
  simp only [Device.getRef, found] at named
  split at named
  · cases named
  · exact named

/-- Setting a ref touches no object, whether or not it succeeds. -/
theorem set_ref_keeps (store : ObjectStore) (name : String) (id : ObjectId) (device : Device) :
    Grows store device (finalState (setRef name id device)) ∧
      (finalState (setRef name id device)).objects = device.objects ∧
      (finalState (setRef name id device)).written = device.written := by
  obtain ⟨after, grows, objects, written, _, ⟨success, _⟩ | ⟨_, message, failure, _⟩⟩ :=
    set_ref_outcome store name id device
  · rw [success]
    exact ⟨grows, objects, written⟩
  · rw [failure]
    exact ⟨grows, objects, written⟩

/-- Setting a ref gives its name the new target or none, and no other name one. -/
theorem set_ref_targets (store : ObjectStore) (name : String) (id : ObjectId) (device : Device)
    (other : String) (target : ObjectId)
    (named : (finalState (setRef name id device)).getRef other = .ok (some target)) :
    device.getRef other = .ok (some target) ∨ other = name ∧ target = id := by
  obtain ⟨after, grows, _, _, elsewhere, outcome⟩ := set_ref_outcome store name id device
  have final : finalState (setRef name id device) = after := by
    rcases outcome with ⟨success, _⟩ | ⟨_, message, failure, _⟩
    · rw [success]
      rfl
    · rw [failure]
      rfl
  rw [final] at named
  by_cases different : other = name
  · subst different
    rcases outcome with ⟨_, written⟩ | ⟨_, message, _, same | ⟨content, written, short⟩⟩
    · have parsed := get_ref_names written named
      rw [parse_ref_text] at parsed
      cases parsed
      exact .inr ⟨rfl, rfl⟩
    · rw [get_ref_congr same grows.unreadableRef] at named
      exact .inl named
    · exact absurd (get_ref_names written named) (parse_ref_of_short content short target)
  · rw [get_ref_congr (elsewhere other different) grows.unreadableRef] at named
    exact .inl named

/-! ## Two disks of one identity -/

/-- What a sound disk holds under an id is decoded from a plaintext it was offered. -/
theorem sound_contents {ls : Lifestream} {device : Device} (sound : Sound ls.store device)
    {id : ObjectId} (present : device.has id = true) :
    ∃ plaintext ∈ device.written, ls.store.idOf plaintext = id ∧
      ls.contents device id = (Object.decode plaintext).toOption := by
  obtain ⟨record, found⟩ := Option.isSome_iff_exists.mp present
  obtain ⟨plaintext, offered, address, opened⟩ := sound id record found
  refine ⟨plaintext, offered, address, ?_⟩
  simp only [contents, found, objectIn, ObjectStore.verified, opened, bind, Except.bind, address,
    if_true]

/-- What was put is what the disk holds. -/
theorem contents_of_holds {ls : Lifestream} {device : Device} {object : Object} {id : ObjectId}
    (sound : Sound ls.store device) (free : CollisionFree ls.store device)
    (holds : Holds ls device object id) : ls.contents device id = some object := by
  have present : device.has id = true := holds.address ▸ holds.stored.present
  obtain ⟨plaintext, offered, address, held⟩ := sound_contents sound present
  have same := free plaintext offered _ holds.stored.offered (address.trans holds.address)
  rw [held, same, decode_encode_object object holds.fits]
  rfl

/-- No plaintext on the one disk collides with a plaintext on the other. -/
def Alike (ls : Lifestream) (left right : Device) : Prop :=
  ∀ id first second plaintext other, left.objects.lookup id = some first →
    right.objects.lookup id = some second → ls.store.verified id first = .ok plaintext →
    ls.store.verified id second = .ok other → plaintext = other

theorem Alike.symm {ls : Lifestream} {left right : Device} (alike : Alike ls left right) :
    Alike ls right left :=
  fun id first second plaintext other here there opens opens' =>
    (alike id second first other plaintext there here opens' opens).symm

theorem contents_opens {ls : Lifestream} {device : Device} {id : ObjectId} {object : Object}
    (held : ls.contents device id = some object) :
    ∃ record plaintext, device.objects.lookup id = some record ∧
      ls.store.verified id record = .ok plaintext ∧ Object.decode plaintext = .ok object := by
  unfold contents at held
  cases found : device.objects.lookup id with
  | none =>
      rw [found] at held
      cases held
  | some record =>
      simp only [found, objectIn, bind, Except.bind] at held
      cases opened : ls.store.verified id record with
      | error error =>
          rw [opened] at held
          cases held
      | ok plaintext =>
          simp only [opened] at held
          cases decoded : Object.decode plaintext with
          | error error =>
              rw [decoded] at held
              cases held
          | ok other =>
              rw [decoded] at held
              cases held
              exact ⟨record, plaintext, rfl, opened, decoded⟩

/-- Two disks that do not collide hold the same object under an id both can open. -/
theorem contents_agree {ls : Lifestream} {left right : Device} (alike : Alike ls left right)
    {id : ObjectId} {first second : Object} (here : ls.contents left id = some first)
    (there : ls.contents right id = some second) : first = second := by
  obtain ⟨record, plaintext, found, opens, decoded⟩ := contents_opens here
  obtain ⟨record', other, found', opens', decoded'⟩ := contents_opens there
  rw [alike id record record' plaintext other found found' opens opens', decoded'] at decoded
  cases decoded
  rfl

theorem sound_valid {ls : Lifestream} {device : Device} (sound : Sound ls.store device) :
    Valid ls device := by
  intro id record found
  obtain ⟨plaintext, _, address, opened⟩ := sound id record found
  refine ⟨plaintext, ?_⟩
  simp only [ObjectStore.verified, opened, bind, Except.bind, address, if_true]

/-- A copy that opens at all opens to the same object. -/
theorem Valid.contents {ls : Lifestream} {left right : Device} (valid : Valid ls right)
    (alike : Alike ls left right) {id : ObjectId} {object : Object}
    (here : ls.contents left id = some object) (there : right.has id = true) :
    ls.contents right id = some object := by
  obtain ⟨record, plaintext, found, opens, decoded⟩ := contents_opens here
  obtain ⟨record', found'⟩ := Option.isSome_iff_exists.mp there
  obtain ⟨other, opens'⟩ := valid id record' found'
  have same := alike id record record' plaintext other found found' opens opens'
  simp only [HorizonOs.Lifestream.contents, found', objectIn, bind, Except.bind, opens', ← same,
    decoded]
  rfl

end HorizonOs.Lifestream
