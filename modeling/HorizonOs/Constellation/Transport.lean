import HorizonOs.Lifestream.Graph

/-!
# Peers

A peer is somewhere objects and refs can be read from and written to, by seven
calls. The in-process peer answers them from a store by direct calls; a sync
makes them on two peers at once.
-/

namespace HorizonOs.Constellation

open HorizonOs.Lib.ByteCodec HorizonOs.Lib.Runs HorizonOs.Lib.Programs
open HorizonOs.Lifestream

set_option autoImplicit false

inductive Error where
  | lifestream (error : Lifestream.Error)
  | sync (message : String)
  | net (message : String)
  deriving DecidableEq, Repr

def Error.display : Error → String
  | .lifestream error => s!"lifestream: {error.display}"
  | .sync message => s!"sync: {message}"
  | .net message => s!"net: {message}"

/-- The methods of `Transport`. -/
inductive TransportCall where
  | haveIds
  | readRecord (id : ObjectId)
  | writeRecord (id : ObjectId) (record : Bytes)
  | refs
  | getRef (name : String)
  | setRef (name : String) (id : ObjectId)
  | parents (id : ObjectId)
  deriving DecidableEq

/-- What each answers. The `HashSet` of `have` is a list, in the order the set
happens to be walked in. -/
@[reducible] def TransportReply : TransportCall → Type
  | .haveIds => List ObjectId
  | .readRecord _ => Bytes
  | .writeRecord _ _ => Bool
  | .refs => List (String × ObjectId)
  | .getRef _ => Option ObjectId
  | .setRef _ _ => Unit
  | .parents _ => Option (List ObjectId)

abbrev Transport (σ : Type) := World TransportCall TransportReply Error σ

/-- A store's reads do not move the disk. -/
def reading {α : Type} (read : Device → Except Lifestream.Error α) : EStateM Error Device α :=
  fun device =>
    match read device with
    | .ok value => .ok value device
    | .error error => .error (.lifestream error) device

def writing {α : Type} (write : StoreM α) : EStateM Error Device α := fun device =>
  match write device with
  | .ok value later => .ok value later
  | .error error later => .error (.lifestream error) later

/-- The parents of a generation; `none` when the id is not one this peer has. -/
def parentsAnswer : Except Lifestream.Error Object →
    Except Lifestream.Error (Option (List ObjectId))
  | .ok (.generation g) => .ok (some g.parents)
  | .ok _ => .ok none
  | .error (.notFound _) => .ok none
  | .error error => .error error

/-- `LocalTransport`. -/
def localTransport (ls : Lifestream) : Transport Device
  | .haveIds => reading fun device => .ok device.listIds
  | .readRecord id => reading fun device => device.readRecord id
  | .writeRecord id record => writing (ls.store.writeRecord id record)
  | .refs => reading Device.readRefs
  | .getRef name => reading fun device => device.getRef name
  | .setRef name id => writing (setRef name id)
  | .parents id => reading fun device => parentsAnswer (ls.get device id)

/-! ## Two peers -/

inductive Side where
  | source
  | destination
  deriving DecidableEq

abbrev SyncCall := Side × TransportCall

@[reducible] def SyncReply (request : SyncCall) : Type := TransportReply request.2

abbrev SyncProgram := Program SyncCall SyncReply

def askSource (call : TransportCall) : SyncProgram (TransportReply call) :=
  ask ((Side.source, call) : SyncCall)

def askDestination (call : TransportCall) : SyncProgram (TransportReply call) :=
  ask ((Side.destination, call) : SyncCall)

/-- Two peers, each with a state of its own. -/
def between {σ τ : Type} (source : Transport σ) (destination : Transport τ) :
    World SyncCall SyncReply Error (σ × τ)
  | (.source, call) => fun state =>
      match source call state.1 with
      | .ok reply later => .ok reply (later, state.2)
      | .error error later => .error error (later, state.2)
  | (.destination, call) => fun state =>
      match destination call state.2 with
      | .ok reply later => .ok reply (state.1, later)
      | .error error later => .error error (state.1, later)

end HorizonOs.Constellation
