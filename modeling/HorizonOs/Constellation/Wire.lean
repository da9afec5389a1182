import HorizonOs.Constellation.Transport
import HorizonOs.Lib.Text

/-!
# The wire

One request names one call of a peer, one response answers it; both are a tag
byte and length-prefixed fields. Every message whose lengths fit their prefixes
is read back as it was written.
-/

namespace HorizonOs.Constellation

open HorizonOs.Lib.ByteCodec HorizonOs.Lib.Text HorizonOs.Lib.Runs
open HorizonOs.Lifestream

set_option autoImplicit false

/-- What the code leaves to its libraries: two texts, and the order of a set. -/
structure Runtime where
  /-- The message of `FromUtf8Error`. -/
  notUtf8 : Bytes → String
  /-- The error of a stream whose other end has gone. -/
  closed : String
  /-- The ids of a list, as the `HashSet` collected from it is walked. -/
  collect : List ObjectId → List ObjectId
  collects : ∀ ids, (collect ids).Perm ids.dedup

def sampleRuntime : Runtime where
  notUtf8 _ := "invalid utf-8 sequence"
  closed := "connection lost"
  collect := List.dedup
  collects _ := List.Perm.refl _

inductive Req where
  | haveIds
  | read (id : ObjectId)
  | write (id : ObjectId) (record : Bytes)
  | refs
  | getRef (name : String)
  | setRef (name : String) (id : ObjectId)
  | parents (id : ObjectId)
  /-- Tear the session down. -/
  | bye
  deriving DecidableEq

inductive Resp where
  | haveIds (ids : List ObjectId)
  | record (bytes : Bytes)
  | wrote (flag : Bool)
  | refs (pairs : List (String × ObjectId))
  | ref (target : Option ObjectId)
  /-- Acknowledges a call that has no value to return. -/
  | did
  | parents (found : Option (List ObjectId))
  /-- The peer failed to serve the request. -/
  | err (message : String)
  deriving DecidableEq

/-! ## Writing -/

def putU32 (value : Nat) : Bytes := encodeU32 (UInt32.ofNat value)

def putBytes (bytes : Bytes) : Bytes := putU32 bytes.length ++ bytes

def putStr (text : String) : Bytes := putBytes (utf8 text)

def putIds (ids : List ObjectId) : Bytes :=
  putU32 ids.length ++ (ids.map FixedBytes.bytes).flatten

def putOptId : Option ObjectId → Bytes
  | some id => [1] ++ id.bytes
  | none => [0]

def putPair (pair : String × ObjectId) : Bytes := putStr pair.1 ++ pair.2.bytes

def Req.encode : Req → Bytes
  | .haveIds => [1]
  | .read id => [2] ++ id.bytes
  | .write id record => [3] ++ (id.bytes ++ putBytes record)
  | .refs => [4]
  | .getRef name => [5] ++ putStr name
  | .setRef name id => [6] ++ (putStr name ++ id.bytes)
  | .parents id => [7] ++ id.bytes
  | .bye => [8]

def Resp.encode : Resp → Bytes
  | .haveIds ids => [1] ++ putIds ids
  | .record bytes => [2] ++ putBytes bytes
  | .wrote flag => [3] ++ [if flag then 1 else 0]
  | .refs pairs => [4] ++ (putU32 pairs.length ++ (pairs.map putPair).flatten)
  | .ref target => [5] ++ putOptId target
  | .did => [6]
  | .parents (some ids) => [7] ++ ([1] ++ putIds ids)
  | .parents none => [7] ++ [0]
  | .err message => [8] ++ putStr message

/-! ## Reading -/

/-- What `Reader::take` answers to a frame that ends too early. -/
def shortFrame : Error := .net "short frame"

def readId : Reader Error ObjectId := takeFixed shortFrame 32

def readBytes : Reader Error Bytes := do
  let count ← takeU32 shortFrame
  take shortFrame count.toNat

def readString (rt : Runtime) : Reader Error String := do
  let bytes ← readBytes
  match fromUtf8 bytes with
  | some text => pure text
  | none => throw (.net (rt.notUtf8 bytes))

def readIds : Reader Error (List ObjectId) := do
  let count ← takeU32 shortFrame
  takeMany readId count.toNat

def readOptId : Reader Error (Option ObjectId) := do
  let tag ← takeU8 shortFrame
  if tag = 0 then pure none
  else do
    let id ← readId
    pure (some id)

def readPair (rt : Runtime) : Reader Error (String × ObjectId) := do
  let name ← readString rt
  let id ← readId
  pure (name, id)

def readReqBody (rt : Runtime) (tag : UInt8) : Reader Error Req :=
  if tag = 1 then pure .haveIds
  else if tag = 2 then do
    let id ← readId
    pure (.read id)
  else if tag = 3 then do
    let id ← readId
    let record ← readBytes
    pure (.write id record)
  else if tag = 4 then pure .refs
  else if tag = 5 then do
    let name ← readString rt
    pure (.getRef name)
  else if tag = 6 then do
    let name ← readString rt
    let id ← readId
    pure (.setRef name id)
  else if tag = 7 then do
    let id ← readId
    pure (.parents id)
  else if tag = 8 then pure .bye
  else throw (.net s!"bad request tag {tag}")

def readReq (rt : Runtime) : Reader Error Req := do
  let tag ← takeU8 shortFrame
  readReqBody rt tag

/-- `Req::decode`: what stands behind the request is not looked at. -/
def Req.decode (rt : Runtime) (buffer : Bytes) : Except Error Req :=
  (readReq rt buffer).map Prod.fst

def readRespBody (rt : Runtime) (tag : UInt8) : Reader Error Resp :=
  if tag = 1 then do
    let ids ← readIds
    pure (.haveIds ids)
  else if tag = 2 then do
    let record ← readBytes
    pure (.record record)
  else if tag = 3 then do
    let wrote ← takeU8 shortFrame
    pure (.wrote (wrote ≠ 0))
  else if tag = 4 then do
    let count ← takeU32 shortFrame
    let pairs ← takeMany (readPair rt) count.toNat
    pure (.refs pairs)
  else if tag = 5 then do
    let target ← readOptId
    pure (.ref target)
  else if tag = 6 then pure .did
  else if tag = 7 then do
    let present ← takeU8 shortFrame
    if present = 0 then pure (.parents none)
    else do
      let ids ← readIds
      pure (.parents (some ids))
  else if tag = 8 then do
    let message ← readString rt
    pure (.err message)
  else throw (.net s!"bad response tag {tag}")

def readResp (rt : Runtime) : Reader Error Resp := do
  let tag ← takeU8 shortFrame
  readRespBody rt tag

def Resp.decode (rt : Runtime) (buffer : Bytes) : Except Error Resp :=
  (readResp rt buffer).map Prod.fst

/-! ## What fits a frame -/

def StrFits (text : String) : Prop := (utf8 text).length < 2 ^ 32

instance : DecidablePred StrFits := fun text =>
  inferInstanceAs (Decidable ((utf8 text).length < 2 ^ 32))

/-- Every length in the request is one that its prefix can hold. -/
def Req.Fits : Req → Prop
  | .write _ record => record.length < 2 ^ 32
  | .getRef name => StrFits name
  | .setRef name _ => StrFits name
  | _ => True

def Resp.Fits : Resp → Prop
  | .haveIds ids => ids.length < 2 ^ 32
  | .record bytes => bytes.length < 2 ^ 32
  | .refs pairs => pairs.length < 2 ^ 32 ∧ ∀ pair ∈ pairs, StrFits pair.1
  | .parents found => ∀ ids ∈ found, ids.length < 2 ^ 32
  | .err message => StrFits message
  | _ => True

/-! ## Round trips -/

theorem put_u32_to_nat {value : Nat} (fits : value < 2 ^ 32) :
    (UInt32.ofNat value).toNat = value := by
  rw [UInt32.toNat_ofNat', Nat.mod_eq_of_lt fits]

theorem length_put_u32 (value : Nat) : (putU32 value).length = 4 := encode_be_length _ _

theorem decodes_id (id : ObjectId) : Decodes readId id.bytes id := decodes_fixed shortFrame id

theorem decodes_bytes (bytes : Bytes) (fits : bytes.length < 2 ^ 32) :
    Decodes readBytes (putBytes bytes) bytes := by
  refine (decodes_u32 shortFrame _).bind ?_
  rw [put_u32_to_nat fits]
  exact decodes_take shortFrame bytes

theorem decodes_string (rt : Runtime) (text : String) (fits : StrFits text) :
    Decodes (readString rt) (putStr text) text := by
  have read := (decodes_bytes (utf8 text) fits).bind
    (k := fun bytes => match fromUtf8 bytes with
      | some found => (pure found : Reader Error String)
      | none => throw (.net (rt.notUtf8 bytes)))
    (by simpa using Decodes.pure text)
  rwa [List.append_nil] at read

theorem decodes_ids (ids : List ObjectId) (fits : ids.length < 2 ^ 32) :
    Decodes readIds (putIds ids) ids := by
  refine (decodes_u32 shortFrame _).bind ?_
  rw [put_u32_to_nat fits]
  exact decodes_many readId FixedBytes.bytes ids fun id _ => decodes_id id

theorem decodes_opt_id (target : Option ObjectId) :
    Decodes readOptId (putOptId target) target := by
  cases target with
  | none => exact (decodes_u8 shortFrame 0).bind (t := []) (Decodes.pure none)
  | some id => exact (decodes_u8 shortFrame 1).bind ((decodes_id id).map some)

theorem decodes_pair (rt : Runtime) (pair : String × ObjectId) (fits : StrFits pair.1) :
    Decodes (readPair rt) (putPair pair) pair :=
  (decodes_string rt pair.1 fits).bind ((decodes_id pair.2).map fun id => (pair.1, id))

theorem decodes_flag (flag : Bool) :
    Decodes (takeU8 shortFrame >>= fun wrote => pure (Resp.wrote (wrote ≠ 0)))
      [if flag then 1 else 0] (.wrote flag) := by
  have read := (decodes_u8 shortFrame (if flag then 1 else 0)).map
    fun wrote => Resp.wrote (wrote ≠ 0)
  have same : Resp.wrote (decide ((if flag then 1 else 0 : UInt8) ≠ 0)) = .wrote flag := by
    cases flag <;> rfl
  rwa [same] at read

theorem decodes_req (rt : Runtime) (req : Req) (fits : req.Fits) :
    Decodes (readReq rt) req.encode req := by
  cases req with
  | haveIds => exact (decodes_u8 shortFrame 1).bind (t := []) (Decodes.pure Req.haveIds)
  | read id => exact (decodes_u8 shortFrame 2).bind ((decodes_id id).map Req.read)
  | write id record =>
      exact (decodes_u8 shortFrame 3).bind ((decodes_id id).bind
        ((decodes_bytes record fits).map fun record => Req.write id record))
  | refs => exact (decodes_u8 shortFrame 4).bind (t := []) (Decodes.pure Req.refs)
  | getRef name => exact (decodes_u8 shortFrame 5).bind ((decodes_string rt name fits).map Req.getRef)
  | setRef name id =>
      exact (decodes_u8 shortFrame 6).bind ((decodes_string rt name fits).bind
        ((decodes_id id).map fun id => Req.setRef name id))
  | parents id => exact (decodes_u8 shortFrame 7).bind ((decodes_id id).map Req.parents)
  | bye => exact (decodes_u8 shortFrame 8).bind (t := []) (Decodes.pure Req.bye)

theorem decodes_resp (rt : Runtime) (resp : Resp) (fits : resp.Fits) :
    Decodes (readResp rt) resp.encode resp := by
  cases resp with
  | haveIds ids =>
      exact (decodes_u8 shortFrame 1).bind ((decodes_ids ids fits).map Resp.haveIds)
  | record bytes =>
      exact (decodes_u8 shortFrame 2).bind ((decodes_bytes bytes fits).map Resp.record)
  | wrote flag => exact (decodes_u8 shortFrame 3).bind (decodes_flag flag)
  | refs pairs =>
      obtain ⟨few, names⟩ := fits
      refine (decodes_u8 shortFrame 4).bind ((decodes_u32 shortFrame _).bind ?_)
      rw [put_u32_to_nat few]
      exact (decodes_many (readPair rt) putPair pairs
        fun pair member => decodes_pair rt pair (names pair member)).map Resp.refs
  | ref target => exact (decodes_u8 shortFrame 5).bind ((decodes_opt_id target).map Resp.ref)
  | did => exact (decodes_u8 shortFrame 6).bind (t := []) (Decodes.pure Resp.did)
  | parents found =>
      cases found with
      | none =>
          exact (decodes_u8 shortFrame 7).bind
            ((decodes_u8 shortFrame 0).bind (t := []) (Decodes.pure (Resp.parents none)))
      | some ids =>
          have few : ids.length < 2 ^ 32 := fits ids rfl
          exact (decodes_u8 shortFrame 7).bind ((decodes_u8 shortFrame 1).bind
            ((decodes_ids ids few).map fun ids => Resp.parents (some ids)))
  | err message =>
      exact (decodes_u8 shortFrame 8).bind ((decodes_string rt message fits).map Resp.err)

/-- Reading a whole buffer reads what it encodes. -/
theorem decode_whole {α : Type} {reader : Reader Error α} {encoded : Bytes} {value : α}
    (decodes : Decodes reader encoded value) :
    (reader encoded).map Prod.fst = .ok value := by
  have read := decodes []
  rw [List.append_nil] at read
  rw [read]
  rfl

theorem decode_encode_req (rt : Runtime) (req : Req) (fits : req.Fits) :
    Req.decode rt req.encode = .ok req :=
  decode_whole (decodes_req rt req fits)

theorem decode_encode_resp (rt : Runtime) (resp : Resp) (fits : resp.Fits) :
    Resp.decode rt resp.encode = .ok resp :=
  decode_whole (decodes_resp rt resp fits)

end HorizonOs.Constellation
