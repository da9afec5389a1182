import HorizonOs.Lifestream.Content
import HorizonOs.Weave.Capability

/-!
# The audit log

Every grant, use, denial and revocation is one entry: a tree object whose
`payload` child holds the encoded event and whose `prev` child, for all but the
first, is the entry before it. A chain is read from its head back to its first
entry.
-/

namespace HorizonOs.Weave

open HorizonOs.Lib.ByteCodec HorizonOs.Lib.Text HorizonOs.Lib.Runs
open HorizonOs.Lifestream

set_option autoImplicit false

inductive Error where
  | lifestream (error : Lifestream.Error)
  | denied (reason : String)
  | corrupt (message : String)
  /-- The call never returns: it walks a chain that closes on itself. -/
  | diverged
  deriving DecidableEq

def Error.display : Error → String
  | .lifestream error => s!"lifestream: {error.display}"
  | .denied reason => s!"denied: {reason}"
  | .corrupt message => s!"corrupt audit record: {message}"
  | .diverged => ""

/-- One thing that happened. -/
inductive Event where
  | grant (grant : GrantId) (principal : PrincipalId) (resource : Resource) (rights : Rights)
      (expiresUnix : Option UInt64) (maxUses : Option UInt32)
  | use (grant : GrantId) (principal : PrincipalId) (resource : Resource) (rights : Rights)
  | deny (principal : PrincipalId) (resource : Resource) (rights : Rights) (reason : String)
  | revoke (grant : GrantId)
  deriving DecidableEq

/-- A decoded entry plus the id of the object it lives at. -/
structure AuditEntry where
  id : ObjectId
  seq : UInt64
  timeUnix : UInt64
  event : Event
  deriving DecidableEq

/-! ## Codec -/

def payloadVersion : UInt8 := 1

def encodeOptU64 : Option UInt64 → Bytes
  | some value => 1 :: encodeU64 value
  | none => [0]

def encodeOptU32 : Option UInt32 → Bytes
  | some value => 1 :: encodeU32 value
  | none => [0]

def encodeResource : Resource → Bytes
  | .file path => [1] ++ encodeText (lossyPath path)
  | .net host port => [2] ++ (encodeText host ++ encodeU16 port)
  | .device name => [3] ++ encodeText name
  | .service name action => [4] ++ (encodeText name ++ encodeText action)

def encodeEvent : Event → Bytes
  | .grant grant principal resource rights expiresUnix maxUses =>
      [1] ++ (grant.bytes ++ (encodeText principal ++ (encodeResource resource ++
        (encodeU32 rights.bits ++ (encodeOptU64 expiresUnix ++ encodeOptU32 maxUses)))))
  | .use grant principal resource rights =>
      [2] ++ (grant.bytes ++ (encodeText principal ++ (encodeResource resource ++
        encodeU32 rights.bits)))
  | .deny principal resource rights reason =>
      [3] ++ (encodeText principal ++ (encodeResource resource ++ (encodeU32 rights.bits ++
        encodeText reason)))
  | .revoke grant => [4] ++ grant.bytes

def encodePayload (seq timeUnix : UInt64) (event : Event) : Bytes :=
  [payloadVersion] ++ (encodeU64 seq ++ (encodeU64 timeUnix ++ encodeEvent event))

/-- What `Reader::need` answers to a record that ends too early. -/
def endOfRecord : Error := .corrupt "unexpected end of record"

def readStr : Reader Error String := do
  let length ← takeU32 endOfRecord
  takeUtf8 endOfRecord (.corrupt "string not utf8") length.toNat

def readOptU64 : Reader Error (Option UInt64) := do
  let present ← takeU8 endOfRecord
  if present = 0 then pure none
  else do
    let value ← takeU64 endOfRecord
    pure (some value)

def readOptU32 : Reader Error (Option UInt32) := do
  let present ← takeU8 endOfRecord
  if present = 0 then pure none
  else do
    let value ← takeU32 endOfRecord
    pure (some value)

def decodeResourceBody (tag : UInt8) : Reader Error Resource :=
  if tag = 1 then do
    let path ← readStr
    pure (.file (utf8 path))
  else if tag = 2 then do
    let host ← readStr
    let port ← takeU16 endOfRecord
    pure (.net host port)
  else if tag = 3 then do
    let name ← readStr
    pure (.device name)
  else if tag = 4 then do
    let name ← readStr
    let action ← readStr
    pure (.service name action)
  else throw (.corrupt s!"bad resource tag {tag}")

def decodeResource : Reader Error Resource := do
  let tag ← takeU8 endOfRecord
  decodeResourceBody tag

def readRights : Reader Error Rights := do
  let bits ← takeU32 endOfRecord
  pure (Rights.fromBits bits)

def decodeEventBody (tag : UInt8) : Reader Error Event :=
  if tag = 1 then do
    let grant ← takeFixed endOfRecord 16
    let principal ← readStr
    let resource ← decodeResource
    let rights ← readRights
    let expiresUnix ← readOptU64
    let maxUses ← readOptU32
    pure (.grant grant principal resource rights expiresUnix maxUses)
  else if tag = 2 then do
    let grant ← takeFixed endOfRecord 16
    let principal ← readStr
    let resource ← decodeResource
    let rights ← readRights
    pure (.use grant principal resource rights)
  else if tag = 3 then do
    let principal ← readStr
    let resource ← decodeResource
    let rights ← readRights
    let reason ← readStr
    pure (.deny principal resource rights reason)
  else if tag = 4 then do
    let grant ← takeFixed endOfRecord 16
    pure (.revoke grant)
  else throw (.corrupt s!"bad event tag {tag}")

def decodeEvent : Reader Error Event := do
  let tag ← takeU8 endOfRecord
  decodeEventBody tag

def readPayload : Reader Error (UInt64 × UInt64 × Event) := do
  let version ← takeU8 endOfRecord
  if version ≠ payloadVersion then throw (.corrupt s!"audit payload version {version}")
  else do
    let seq ← takeU64 endOfRecord
    let timeUnix ← takeU64 endOfRecord
    let event ← decodeEvent
    pure (seq, timeUnix, event)

def decodePayload (buffer : Bytes) : Except Error (UInt64 × UInt64 × Event) :=
  (readPayload buffer).map Prod.fst

/-! ## The chain in the store -/

def childPayload : String := "payload"
def childPrev : String := "prev"

/-- The children of an entry's tree. -/
def entryChildren (payloadId : ObjectId) (prev : Option ObjectId) : List TreeEntry :=
  { name := childPayload, kind := .file, id := payloadId, mode := 0 } ::
    (prev.map fun id =>
      ({ name := childPrev, kind := .tree, id, mode := 0 } : TreeEntry)).toList

/-- Append an event as a new chained entry and return the new head. -/
def append (ls : Lifestream) (prev : Option ObjectId) (seq timeUnix : UInt64) (event : Event) :
    StoreM ObjectId := do
  let payloadId ← ls.writeBytes (encodePayload seq timeUnix event)
  ls.put (.tree (entryChildren payloadId prev))

/-- The `?` operator on a store's result. -/
def fromLifestream {α : Type} : Except Lifestream.Error α → Except Error α
  | .ok value => .ok value
  | .error error => .error (.lifestream error)

def childNamed (name : String) (entries : List TreeEntry) : Option ObjectId :=
  (entries.find? fun entry => entry.name = name).map TreeEntry.id

def readEntry (ls : Lifestream) (device : Device) (id : ObjectId) :
    Except Error (AuditEntry × Option ObjectId) := do
  let object ← fromLifestream (ls.get device id)
  match object with
  | .tree entries =>
      match childNamed childPayload entries with
      | none => .error (.corrupt "audit entry has no payload")
      | some payloadId => do
          let payload ← fromLifestream (ls.readBytes device payloadId)
          let (seq, timeUnix, event) ← decodePayload payload
          .ok ({ id, seq, timeUnix, event }, childNamed childPrev entries)
  | _ => .error (.corrupt "audit entry is not a tree")

/-- The loop of `read_chain`, newest entry first. A walk over more entries than
the store has objects has met one of them twice and goes on for ever. -/
def walkChain (ls : Lifestream) (device : Device) : Nat → ObjectId →
    Except Error (List AuditEntry)
  | 0, _ => .error .diverged
  | fuel + 1, id => do
      let (entry, prev) ← readEntry ls device id
      match prev with
      | none => .ok [entry]
      | some before => do
          let rest ← walkChain ls device fuel before
          .ok (entry :: rest)

/-- Walk the chain from `head` and return its entries, oldest first. -/
def readChain (ls : Lifestream) (device : Device) (head : ObjectId) :
    Except Error (List AuditEntry) := do
  let out ← walkChain ls device (device.objects.keys.length + 1) head
  .ok out.reverse

end HorizonOs.Weave
