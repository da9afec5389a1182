import HorizonOs.Lib.Runs
import HorizonOs.Lifestream.Crypto
import Mathlib.Data.List.AList

/-!
# The object store

A flat store of sealed records by content address, and refs that name some of
them. Writes go through an operating system that may fail at any call; reads
see the disk as it stands. `Advances` is what every write, successful or not,
does to the disk: objects are only ever added, each under the address of its
plaintext, and refs stay put.
-/

namespace HorizonOs.Lifestream

open HorizonOs.Lib.ByteCodec HorizonOs.Lib.Text HorizonOs.Lib.Runs

set_option autoImplicit false

/-! ## The disk -/

/-- A failing system call: the error it reports, and for a write that had
already truncated its file how many bytes of the new content got there. -/
structure Fault where
  message : String
  landed : Option Nat
  deriving DecidableEq, Repr

/-- A store directory, and what the coming system calls on it will do. -/
structure Device where
  marker : Bool
  objects : AList fun _ : ObjectId => Bytes
  refs : AList fun _ : String => Bytes
  /-- Files that exist and fail to read, with the error they fail with. -/
  unreadable : ObjectId → Option String
  unreadableRef : String → Option String
  /-- The outcome of each coming write call; none left means all succeed. -/
  faults : List (Option Fault)
  /-- How much was drawn from the random source. -/
  drawn : Nat
  /-- Every plaintext ever offered to the store: a history variable that no
  operation reads. -/
  written : List Bytes

abbrev StoreM := EStateM Error Device

/-- A directory without files, on an operating system that never fails. -/
def Device.empty : Device where
  marker := false
  objects := ∅
  refs := ∅
  unreadable := fun _ => none
  unreadableRef := fun _ => none
  faults := []
  drawn := 0
  written := []

/-- No system call on this disk fails. -/
structure Device.Healthy (device : Device) : Prop where
  faults : device.faults = []
  unreadable : ∀ id, device.unreadable id = none
  unreadableRef : ∀ name, device.unreadableRef name = none

/-- One system call that changes nothing we look at, or fails. -/
def osCall : StoreM Unit := fun device =>
  match device.faults with
  | some fault :: rest => .error (.io fault.message) { device with faults := rest }
  | none :: rest => .ok () { device with faults := rest }
  | [] => .ok () device

/-! ## The store -/

structure ObjectStore where
  crypto : Crypto
  keys : Keys

def ObjectStore.idOf (store : ObjectStore) (plaintext : Bytes) : ObjectId :=
  store.keys.idOf store.crypto plaintext

def Device.has (device : Device) (id : ObjectId) : Bool := (device.objects.lookup id).isSome

def theDevice : StoreM Device := fun device => .ok device device

def note (plaintext : Bytes) : StoreM Unit := fun device =>
  .ok () { device with written := plaintext :: device.written }

def drawNonce (crypto : Crypto) : StoreM Nonce := fun device =>
  .ok (crypto.nonceAt device.drawn) { device with drawn := device.drawn + 1 }

def link (id : ObjectId) (record : Bytes) : StoreM Unit := fun device =>
  .ok () { device with objects := device.objects.insert id record }

/-- `commit_record`: write a temp file, then rename it into place. -/
def commitRecord (id : ObjectId) (record : Bytes) : StoreM Unit := do
  osCall
  osCall
  link id record

def liftExcept {α : Type} (result : Except Error α) : StoreM α := fun device =>
  match result with
  | .ok value => .ok value device
  | .error error => .error error device

def ObjectStore.init (crypto : Crypto) (master : Key) : StoreM ObjectStore := do
  osCall
  osCall
  let device ← theDevice
  if device.marker then pure ⟨crypto, Keys.derive crypto master⟩
  else do
    osCall
    modify fun device => { device with marker := true }
    pure ⟨crypto, Keys.derive crypto master⟩

/-- `ObjectStore::open`: the key is taken as given. -/
def ObjectStore.openStore (crypto : Crypto) (device : Device) (master : Key) :
    Except Error ObjectStore :=
  if device.marker then .ok ⟨crypto, Keys.derive crypto master⟩
  else .error (.store "is not a lifestream store")

/-- What `put` does once it knows that the object is not there. -/
def ObjectStore.putNew (store : ObjectStore) (id : ObjectId) (plaintext : Bytes) :
    StoreM ObjectId := do
  let nonce ← drawNonce store.crypto
  let record ← liftExcept (store.keys.sealRecord store.crypto nonce id plaintext)
  osCall
  commitRecord id record
  pure id

def ObjectStore.put (store : ObjectStore) (plaintext : Bytes) : StoreM ObjectId := do
  let id := store.idOf plaintext
  note plaintext
  let device ← theDevice
  if device.has id then pure id else store.putNew id plaintext

/-- `read_record`: the sealed record as it sits on disk. -/
def Device.readRecord (device : Device) (id : ObjectId) : Except Error Bytes :=
  match device.objects.lookup id with
  | none => .error (.notFound id.toHex)
  | some record =>
      match device.unreadable id with
      | some message => .error (.io message)
      | none => .ok record

/-- Open a record and check that its plaintext addresses back to its id. -/
def ObjectStore.verified (store : ObjectStore) (id : ObjectId) (record : Bytes) :
    Except Error Bytes := do
  let plaintext ← store.keys.openRecord store.crypto id record
  if store.idOf plaintext = id then .ok plaintext
  else .error (.corrupt s!"hash mismatch for {id.toHex}")

def ObjectStore.get (store : ObjectStore) (device : Device) (id : ObjectId) :
    Except Error Bytes := do
  let record ← device.readRecord id
  store.verified id record

def delete (id : ObjectId) : StoreM Unit := do
  let device ← theDevice
  if device.has id then do
    osCall
    modify fun device => { device with objects := device.objects.erase id }
  else pure ()

/-- Accept a sealed record from a peer; a record that does not open to its id
is refused. `false` when the object was already there. -/
def ObjectStore.writeRecord (store : ObjectStore) (id : ObjectId) (record : Bytes) :
    StoreM Bool := do
  let device ← theDevice
  if device.has id then pure false
  else do
    let plaintext ← liftExcept (store.verified id record)
    note plaintext
    osCall
    commitRecord id record
    pure true

def Device.listIds (device : Device) : List ObjectId := device.objects.keys

/-- The text a ref file holds. -/
def refText (id : ObjectId) : Bytes := utf8 id.toHex

/-- `fs::write` truncates before it writes, so a write that fails may leave a
strict prefix of the new content behind. -/
def setRef (name : String) (id : ObjectId) : StoreM Unit := fun device =>
  match device.faults with
  | some fault :: rest =>
      let refs := match fault.landed with
        | none => device.refs
        | some count => device.refs.insert name ((refText id).dropLast.take count)
      .error (.io fault.message) { device with refs, faults := rest }
  | none :: rest =>
      .ok () { device with refs := device.refs.insert name (refText id), faults := rest }
  | [] => .ok () { device with refs := device.refs.insert name (refText id) }

/-- The id a ref file names, if its text is one. -/
def parseRef (content : Bytes) : Except Error (Option ObjectId) :=
  match fromUtf8 content with
  | none => .error (.io "stream did not contain valid UTF-8")
  | some text => .ok (ObjectId.fromHex (trim text))

def Device.getRef (device : Device) (name : String) : Except Error (Option ObjectId) :=
  match device.refs.lookup name with
  | none => .ok none
  | some content =>
      match device.unreadableRef name with
      | some message => .error (.io message)
      | none => parseRef content

def Device.listRefs (device : Device) : List String := device.refs.keys

end HorizonOs.Lifestream
