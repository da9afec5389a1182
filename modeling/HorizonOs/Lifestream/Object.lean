import HorizonOs.Lib.Text

/-!
# The Lifestream object model

The four object kinds, their encoding and its decoder. Everything in a store
is one of these, encoded to bytes, addressed by its content and then sealed.
-/

namespace HorizonOs.Lifestream

open HorizonOs.Lib.ByteCodec HorizonOs.Lib.Text

set_option autoImplicit false

/-- A failure of the store: the operating system's, the cipher's, or its own. -/
inductive Error where
  | io (message : String)
  | crypto
  | notFound (id : String)
  | corrupt (message : String)
  | store (message : String)
  deriving DecidableEq, Repr

def Error.display : Error → String
  | .io message => s!"io: {message}"
  | .crypto => "decrypt or verify failed"
  | .notFound id => s!"object not found: {id}"
  | .corrupt message => s!"corrupt object: {message}"
  | .store message => s!"store: {message}"

abbrev ObjectId := FixedBytes 32

instance : LawfulBEq ObjectId := inferInstance

def ObjectId.toHex (id : ObjectId) : String := encodeHex id.bytes

def ObjectId.fromHex (text : String) : Option ObjectId := do
  let bytes ← decodeHexChars text.toList
  if size : bytes.length = 32 then some ⟨bytes, size⟩ else none

theorem from_hex_to_hex (id : ObjectId) : ObjectId.fromHex id.toHex = some id := by
  simp [ObjectId.fromHex, ObjectId.toHex, encodeHex, decode_encode_hex]

inductive NodeKind where
  | file
  | tree
  | symlink
  deriving DecidableEq, Repr

def NodeKind.tag : NodeKind → UInt8
  | .file => 0
  | .tree => 1
  | .symlink => 2

def NodeKind.fromTag (tag : UInt8) : Except Error NodeKind :=
  if tag = 0 then .ok .file
  else if tag = 1 then .ok .tree
  else if tag = 2 then .ok .symlink
  else .error (.corrupt s!"bad node kind {tag}")

structure TreeEntry where
  name : String
  kind : NodeKind
  id : ObjectId
  mode : UInt32
  deriving DecidableEq

structure Generation where
  root : ObjectId
  parents : List ObjectId
  timeUnix : UInt64
  label : String
  metaText : String
  deriving DecidableEq

inductive Object where
  | chunk (data : Bytes)
  | file (chunks : List ObjectId)
  | tree (entries : List TreeEntry)
  | generation (generation : Generation)
  deriving DecidableEq

/-! ## Encoding -/

/-- The lengths are cast to the width of their field, as the source casts them. -/
def TreeEntry.encode (entry : TreeEntry) : Bytes :=
  encodeU16 (UInt16.ofNat (utf8 entry.name).length) ++ (utf8 entry.name ++
    ([entry.kind.tag] ++ (encodeU32 entry.mode ++ entry.id.bytes)))

def encodeText (text : String) : Bytes :=
  encodeU32 (UInt32.ofNat (utf8 text).length) ++ utf8 text

def Generation.encode (g : Generation) : Bytes :=
  g.root.bytes ++ ([UInt8.ofNat g.parents.length] ++ ((g.parents.map FixedBytes.bytes).flatten ++
    (encodeU64 g.timeUnix ++ (encodeText g.label ++ encodeText g.metaText))))

def Object.encode : Object → Bytes
  | .chunk data => 1 :: data
  | .file chunks =>
      2 :: (encodeU32 (UInt32.ofNat chunks.length) ++ (chunks.map FixedBytes.bytes).flatten)
  | .tree entries =>
      3 :: (encodeU32 (UInt32.ofNat entries.length) ++ (entries.map TreeEntry.encode).flatten)
  | .generation g => 4 :: g.encode

/-! ## Decoding -/

/-- What `Reader::need` answers to a buffer that ends too early. -/
def endOfObject : Error := .corrupt "unexpected end of object"

def readEntry : Reader Error TreeEntry := do
  let nameLength ← takeU16 endOfObject
  let name ← takeUtf8 endOfObject (.corrupt "name not utf8") nameLength.toNat
  let tag ← takeU8 endOfObject
  let kind ← StateT.lift (NodeKind.fromTag tag)
  let mode ← takeU32 endOfObject
  let id ← takeFixed endOfObject 32
  pure { name, kind, id, mode }

def readText (notUtf8 : Error) : Reader Error String := do
  let length ← takeU32 endOfObject
  takeUtf8 endOfObject notUtf8 length.toNat

def readGeneration : Reader Error Generation := do
  let root ← takeFixed endOfObject 32
  let parentCount ← takeU8 endOfObject
  let parents ← takeMany (takeFixed endOfObject 32) parentCount.toNat
  let timeUnix ← takeU64 endOfObject
  let label ← readText (.corrupt "label not utf8")
  let metaText ← readText (.corrupt "meta not utf8")
  pure { root, parents, timeUnix, label, metaText }

/-- What follows the tag byte, by the kind the tag names. -/
def readBody (tag : UInt8) : Reader Error Object :=
  if tag = 1 then do
    let data ← takeRest
    pure (.chunk data)
  else if tag = 2 then do
    let count ← takeU32 endOfObject
    let chunks ← takeMany (takeFixed endOfObject 32) count.toNat
    pure (.file chunks)
  else if tag = 3 then do
    let count ← takeU32 endOfObject
    let entries ← takeMany readEntry count.toNat
    pure (.tree entries)
  else if tag = 4 then do
    let g ← readGeneration
    pure (.generation g)
  else throw (.corrupt s!"bad object tag {tag}")

def readObject : Reader Error Object := do
  let tag ← takeU8 endOfObject
  readBody tag

/-- `Object::decode`: bytes left over after the object are not looked at. -/
def Object.decode (buffer : Bytes) : Except Error Object :=
  (readObject buffer).map Prod.fst

/-- The ids an object points at, the edges gc and sync walk. -/
def Object.links : Object → List ObjectId
  | .chunk _ => []
  | .file chunks => chunks
  | .tree entries => entries.map TreeEntry.id
  | .generation g => g.root :: g.parents

/-! ## Round trip -/

/-- Every length of the object fits the field it is written to. -/
def Object.Fits : Object → Prop
  | .chunk _ => True
  | .file chunks => chunks.length < 2 ^ 32
  | .tree entries =>
      entries.length < 2 ^ 32 ∧ ∀ entry ∈ entries, (utf8 entry.name).length < 2 ^ 16
  | .generation g =>
      g.parents.length < 2 ^ 8 ∧ (utf8 g.label).length < 2 ^ 32 ∧
        (utf8 g.metaText).length < 2 ^ 32

theorem from_tag_tag (kind : NodeKind) : NodeKind.fromTag kind.tag = .ok kind := by
  cases kind <;> rfl

theorem decodes_lift {ε α : Type} (value : α) :
    Decodes (StateT.lift (.ok value) : Reader ε α) [] value := fun _ => rfl

theorem decodes_entry (entry : TreeEntry) (fits : (utf8 entry.name).length < 2 ^ 16) :
    Decodes readEntry entry.encode entry := by
  have nameLength : (UInt16.ofNat (utf8 entry.name).length).toNat = (utf8 entry.name).length := by
    rw [UInt16.toNat_ofNat', Nat.mod_eq_of_lt fits]
  have kind : Decodes (StateT.lift (NodeKind.fromTag entry.kind.tag) : Reader Error NodeKind) []
      entry.kind := by
    rw [from_tag_tag]
    exact decodes_lift entry.kind
  refine (decodes_u16 endOfObject _).bind ?_
  rw [nameLength]
  refine (decodes_utf8 endOfObject _ entry.name).bind ?_
  refine (decodes_u8 endOfObject entry.kind.tag).bind ?_
  refine kind.bind (s := []) ?_
  refine (decodes_u32 endOfObject entry.mode).bind ?_
  exact (decodes_fixed endOfObject entry.id).map
    fun id => ({ name := entry.name, kind := entry.kind, id, mode := entry.mode } : TreeEntry)

theorem decodes_text (notUtf8 : Error) (text : String) (fits : (utf8 text).length < 2 ^ 32) :
    Decodes (readText notUtf8) (encodeText text) text := by
  have length : (UInt32.ofNat (utf8 text).length).toNat = (utf8 text).length := by
    rw [UInt32.toNat_ofNat', Nat.mod_eq_of_lt fits]
  refine (decodes_u32 endOfObject _).bind ?_
  rw [length]
  exact decodes_utf8 endOfObject notUtf8 text

theorem decodes_ids (ids : List ObjectId) :
    Decodes (takeMany (takeFixed endOfObject 32) ids.length) (ids.map FixedBytes.bytes).flatten
      ids :=
  decodes_many _ _ ids fun id _ => decodes_fixed endOfObject id

theorem decodes_generation (g : Generation) (fits : (Object.generation g).Fits) :
    Decodes readGeneration g.encode g := by
  have count : (UInt8.ofNat g.parents.length).toNat = g.parents.length := by
    rw [UInt8.toNat_ofNat', Nat.mod_eq_of_lt fits.1]
  refine (decodes_fixed endOfObject g.root).bind ?_
  refine (decodes_u8 endOfObject _).bind ?_
  rw [count]
  refine (decodes_ids g.parents).bind ?_
  refine (decodes_u64 endOfObject g.timeUnix).bind ?_
  refine (decodes_text _ g.label fits.2.1).bind ?_
  exact (decodes_text _ g.metaText fits.2.2).map fun metaText =>
    ({ root := g.root, parents := g.parents, timeUnix := g.timeUnix, label := g.label,
       metaText } : Generation)

theorem decodes_body (object : Object) (fits : object.Fits) :
    ∃ tag body, object.encode = tag :: body ∧
      readBody tag body = .ok (object, []) := by
  cases object with
  | chunk data => exact ⟨1, data, rfl, rfl⟩
  | file chunks =>
      have count : (UInt32.ofNat chunks.length).toNat = chunks.length := by
        rw [UInt32.toNat_ofNat', Nat.mod_eq_of_lt fits]
      have body := (decodes_u32 endOfObject (UInt32.ofNat chunks.length)).bind
        (k := fun count => do
          let chunks ← takeMany (takeFixed endOfObject 32) count.toNat
          pure (Object.file chunks))
        (by rw [count]; exact (decodes_ids chunks).map Object.file)
      refine ⟨2, _, rfl, ?_⟩
      have whole := body []
      rwa [List.append_nil] at whole
  | tree entries =>
      have count : (UInt32.ofNat entries.length).toNat = entries.length := by
        rw [UInt32.toNat_ofNat', Nat.mod_eq_of_lt fits.1]
      have items := decodes_many readEntry TreeEntry.encode entries
        fun entry member => decodes_entry entry (fits.2 entry member)
      have body := (decodes_u32 endOfObject (UInt32.ofNat entries.length)).bind
        (k := fun count => do
          let entries ← takeMany readEntry count.toNat
          pure (Object.tree entries))
        (by rw [count]; exact items.map Object.tree)
      refine ⟨3, _, rfl, ?_⟩
      have whole := body []
      rwa [List.append_nil] at whole
  | generation g =>
      refine ⟨4, _, rfl, ?_⟩
      have whole := (decodes_generation g fits).map Object.generation []
      rwa [List.append_nil] at whole

theorem decode_encode_object (object : Object) (fits : object.Fits) :
    Object.decode object.encode = .ok object := by
  obtain ⟨tag, body, encoded, read⟩ := decodes_body object fits
  have whole : readObject (tag :: body) = readBody tag body := by
    change ((takeU8 endOfObject ([tag] ++ body)).bind fun pair => readBody pair.1 pair.2) = _
    rw [decodes_u8]
    rfl
  rw [encoded, Object.decode, whole, read]
  rfl

/-! ## What a decoder may complain of -/

/-- The decoder finds no other fault than a corrupt object. -/
def Error.IsCorrupt (error : Error) : Prop := ∃ message, error = .corrupt message

theorem corrupt_end : endOfObject.IsCorrupt := ⟨_, rfl⟩

theorem fails_entry : FailsWith Error.IsCorrupt readEntry := by
  apply (fails_u16 corrupt_end).bind
  intro nameLength
  apply (fails_utf8 corrupt_end ⟨_, rfl⟩ _).bind
  intro name
  apply (fails_u8 corrupt_end).bind
  intro tag
  have kinds : FailsWith Error.IsCorrupt
      (StateT.lift (NodeKind.fromTag tag) : Reader Error NodeKind) := by
    intro input error failed
    unfold NodeKind.fromTag at failed
    split at failed
    · cases failed
    · split at failed
      · cases failed
      · split at failed
        · cases failed
        · cases failed
          exact ⟨_, rfl⟩
  apply kinds.bind
  intro kind
  apply (fails_u32 corrupt_end).bind
  intro mode
  exact (fails_fixed corrupt_end 32).bind fun id => FailsWith.pure _

theorem fails_text (notUtf8 : Error) (spelled : notUtf8.IsCorrupt) :
    FailsWith Error.IsCorrupt (readText notUtf8) :=
  (fails_u32 corrupt_end).bind fun _ => fails_utf8 corrupt_end spelled _

theorem fails_generation : FailsWith Error.IsCorrupt readGeneration := by
  apply (fails_fixed corrupt_end 32).bind
  intro root
  apply (fails_u8 corrupt_end).bind
  intro parentCount
  apply (fails_many (fails_fixed corrupt_end 32) _).bind
  intro parents
  apply (fails_u64 corrupt_end).bind
  intro timeUnix
  apply (fails_text _ ⟨_, rfl⟩).bind
  intro label
  exact (fails_text _ ⟨_, rfl⟩).bind fun metaText => FailsWith.pure _

theorem fails_body (tag : UInt8) : FailsWith Error.IsCorrupt (readBody tag) := by
  unfold readBody
  split
  · intro input error failed
    cases failed
  · split
    · apply (fails_u32 corrupt_end).bind
      exact fun count => (fails_many (fails_fixed corrupt_end 32) _).bind fun _ => FailsWith.pure _
    · split
      · apply (fails_u32 corrupt_end).bind
        exact fun count => (fails_many fails_entry _).bind fun _ => FailsWith.pure _
      · split
        · exact fails_generation.bind fun g => FailsWith.pure _
        · exact FailsWith.throw ⟨_, rfl⟩

theorem decode_error_corrupt (buffer : Bytes) (error : Error)
    (failed : Object.decode buffer = .error error) : error.IsCorrupt := by
  unfold Object.decode at failed
  cases outcome : readObject buffer with
  | ok pair =>
      rw [outcome] at failed
      cases failed
  | error other =>
      rw [outcome] at failed
      cases failed
      exact ((fails_u8 corrupt_end).bind fails_body) buffer _ outcome

end HorizonOs.Lifestream
