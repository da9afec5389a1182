import HorizonOs.Lib.Buffer
import HorizonOs.Lib.LastWrite
import HorizonOs.Lib.Text

/-!
# The vector index

Documents under their ids, each with its embedding and a snippet, and the bytes they are kept as.
A float is its 32 bits.
-/

namespace HorizonOs.Aura

open HorizonOs.Lib.Buffer HorizonOs.Lib.ByteCodec HorizonOs.Lib.LastWrite HorizonOs.Lib.Runs
open HorizonOs.Lib.Text

set_option autoImplicit false

structure Entry where
  id : String
  vector : List UInt32
  snippet : String
  deriving DecidableEq

structure VectorIndex where
  dim : Nat
  entries : List Entry
  deriving DecidableEq

/-- The first entry of this id gives way, or a new one goes behind all. -/
def putEntry (entry : Entry) : List Entry → List Entry
  | [] => [entry]
  | first :: rest => if first.id = entry.id then entry :: rest else first :: putEntry entry rest

namespace VectorIndex

def new (dim : Nat) : VectorIndex := ⟨dim, []⟩

def add (index : VectorIndex) (id : String) (vector : List UInt32) (snippet : String) :
    VectorIndex :=
  { index with entries := putEntry ⟨id, vector, snippet⟩ index.entries }

/-- Also whether a document was there. -/
def remove (index : VectorIndex) (id : String) : VectorIndex × Bool :=
  let entries := index.entries.filter fun entry => entry.id ≠ id
  ({ index with entries }, entries.length ≠ index.entries.length)

/-! ## The bytes -/

def putU32 (value : Nat) : Bytes := encodeLE 4 (UInt32.ofNat value).toNat

def putBytes (bytes : Bytes) : Bytes := putU32 bytes.length ++ bytes

/-- `f32::to_le_bytes`. -/
def putF32 (bits : UInt32) : Bytes := encodeLE 4 bits.toNat

/-- `AVIX`. -/
def magic : Bytes := [0x41, 0x56, 0x49, 0x58]

def putEntryBytes (entry : Entry) : Bytes :=
  putBytes (utf8 entry.id) ++ (putBytes (utf8 entry.snippet) ++ (entry.vector.map putF32).flatten)

def encode (index : VectorIndex) : Bytes :=
  magic ++ ([1] ++ (putU32 index.dim ++ (putU32 index.entries.length ++
    (index.entries.map putEntryBytes).flatten)))

/-- `Error::Index`. -/
structure IndexError where
  message : String
  deriving DecidableEq

def truncated : IndexError := ⟨"truncated"⟩

def takeU32 : Reader IndexError UInt32 := do
  let bytes ← take truncated 4
  pure (UInt32.ofNat (decodeLE bytes))

def takeString : Reader IndexError String := do
  let length ← takeU32
  takeUtf8 truncated ⟨"non-utf8 string"⟩ length.toNat

def takeEntry (dim : Nat) : Reader IndexError Entry := do
  let id ← takeString
  let snippet ← takeString
  let vector ← takeMany takeU32 dim
  pure ⟨id, vector, snippet⟩

def takeEntries : Reader IndexError VectorIndex := do
  let dim ← takeU32
  let count ← takeU32
  let entries ← takeMany (takeEntry dim.toNat) count.toNat
  pure ⟨dim.toNat, entries⟩

def takeVersion : Reader IndexError VectorIndex := do
  let version ← takeU8 truncated
  if version ≠ 1 then throw ⟨"unsupported version"⟩ else takeEntries

def takeIndex : Reader IndexError VectorIndex := do
  let tag ← take truncated 4
  if tag ≠ magic then throw ⟨"bad magic"⟩ else takeVersion

/-- `VectorIndex::decode`: what stands behind the last entry is not looked at. -/
def decode (buf : Bytes) : Except IndexError VectorIndex := (takeIndex buf).map Prod.fst

/-! ## What fits the format -/

def TextFits (text : String) : Prop := (utf8 text).length < 2 ^ 32

/-- Every count is one that its 32 bits can hold. -/
def Fits (index : VectorIndex) : Prop :=
  index.dim < 2 ^ 32 ∧ index.entries.length < 2 ^ 32 ∧
    ∀ entry ∈ index.entries, TextFits entry.id ∧ TextFits entry.snippet

/-- Every embedding has the index's dimension. -/
def Sized (index : VectorIndex) : Prop := ∀ entry ∈ index.entries, entry.vector.length = index.dim

theorem decodes_f32 (bits : UInt32) : Decodes takeU32 (putF32 bits) bits := by
  have taken := (decodes_take_of_length truncated (putF32 bits) 4 (length_encode_le _ _)).map
    fun bytes => UInt32.ofNat (decodeLE bytes)
  have same : UInt32.ofNat (decodeLE (putF32 bits)) = bits := by
    rw [putF32, decode_encode_le_of_lt 4 _ bits.toNat_lt, UInt32.ofNat_toNat]
  rwa [same] at taken

theorem decodes_string (text : String) (fits : TextFits text) :
    Decodes takeString (putBytes (utf8 text)) text := by
  refine (decodes_f32 _).bind ?_
  rw [UInt32.toNat_ofNat', Nat.mod_eq_of_lt fits]
  exact decodes_utf8 truncated _ text

theorem decodes_entry {dim : Nat} (entry : Entry) (id : TextFits entry.id)
    (snippet : TextFits entry.snippet) (size : entry.vector.length = dim) :
    Decodes (takeEntry dim) (putEntryBytes entry) entry := by
  have vector := decodes_many takeU32 putF32 entry.vector fun bits _ => decodes_f32 bits
  rw [size] at vector
  exact (decodes_string entry.id id).bind ((decodes_string entry.snippet snippet).bind
    (vector.map fun vector => Entry.mk entry.id vector entry.snippet))

theorem decodes_index (index : VectorIndex) (sized : index.Sized) (fits : index.Fits) :
    Decodes takeIndex index.encode index := by
  obtain ⟨dim, count, texts⟩ := fits
  have entries := decodes_many (takeEntry index.dim) putEntryBytes index.entries
    fun entry member => decodes_entry entry (texts entry member).1 (texts entry member).2
      (sized entry member)
  have body : Decodes takeEntries (putU32 index.dim ++ (putU32 index.entries.length ++
      (index.entries.map putEntryBytes).flatten)) index := by
    refine (decodes_f32 _).bind ((decodes_f32 _).bind ?_)
    rw [UInt32.toNat_ofNat', Nat.mod_eq_of_lt dim, UInt32.toNat_ofNat', Nat.mod_eq_of_lt count]
    exact entries.map (VectorIndex.mk index.dim)
  exact (decodes_take_of_length truncated magic 4 rfl).bind ((decodes_u8 truncated 1).bind body)

theorem yields_string : Yields TextFits takeString :=
  (yields_any takeU32).bind fun length _ input text rest read => by
    rw [TextFits, yields_utf8 _ _ _ input text rest read]
    exact length.toNat_lt

theorem yields_entry (dim : Nat) :
    Yields (fun entry => TextFits entry.id ∧ TextFits entry.snippet) (takeEntry dim) :=
  yields_string.bind fun _ id => yields_string.bind fun _ snippet =>
    (yields_any _).bind fun _ _ => Yields.pure ⟨id, snippet⟩

theorem yields_index : Yields Fits takeIndex := by
  have entries : Yields Fits takeEntries :=
    (yields_any takeU32).bind fun dim _ => (yields_any takeU32).bind fun count _ =>
      (yields_many (yields_entry dim.toNat) count.toNat).bind fun _ read =>
        Yields.pure ⟨dim.toNat_lt, read.1.trans_lt count.toNat_lt, read.2⟩
  refine (yields_any _).bind fun tag _ => ?_
  split
  · exact Yields.throw _
  · refine (yields_any _).bind fun version _ => ?_
    split
    · exact Yields.throw _
    · exact entries

/-- An index comes back from its bytes exactly where its counts fit. -/
theorem decode_encode_iff (index : VectorIndex) (sized : index.Sized) :
    decode index.encode = .ok index ↔ index.Fits := by
  constructor
  · intro decoded
    cases outcome : takeIndex index.encode with
    | error error =>
        rw [decode, outcome] at decoded
        cases decoded
    | ok pair =>
        rw [decode, outcome] at decoded
        cases decoded
        exact yields_index _ _ _ outcome
  · intro fits
    have whole := decodes_index index sized fits []
    rw [List.append_nil] at whole
    rw [decode, whole]
    rfl

end VectorIndex

/-! ## Adding and removing -/

inductive IndexCall where
  | add (id : String) (vector : List UInt32) (snippet : String)
  | remove (id : String)

def IndexCall.id : IndexCall → String
  | .add id _ _ => id
  | .remove id => id

/-- An added embedding has the dimension. -/
def IndexCall.Sized (dim : Nat) : IndexCall → Prop
  | .add _ vector _ => vector.length = dim
  | .remove _ => True

def VectorIndex.step (index : VectorIndex) : IndexCall → VectorIndex
  | .add id vector snippet => index.add id vector snippet
  | .remove id => (index.remove id).1

/-- What a call makes of the document under an id. -/
def IndexCall.touch (id : String) : IndexCall → Option (Option Entry)
  | .add other vector snippet => if other = id then some (some ⟨other, vector, snippet⟩) else none
  | .remove other => if other = id then some none else none

section Calls

variable {id : String} {entries : List Entry}

theorem find_put_same (entry : Entry) (entries : List Entry) :
    (putEntry entry entries).find? (·.id = entry.id) = some entry := by
  induction entries with
  | nil => exact List.find?_cons_of_pos (decide_eq_true rfl)
  | cons first rest ih =>
      rw [putEntry]
      split_ifs with same
      · exact List.find?_cons_of_pos (decide_eq_true rfl)
      · rw [List.find?_cons_of_neg (by simpa using same), ih]

theorem find_put_other {entry : Entry} (other : entry.id ≠ id) (entries : List Entry) :
    (putEntry entry entries).find? (·.id = id) = entries.find? (·.id = id) := by
  induction entries with
  | nil => exact List.find?_cons_of_neg (by simpa using other)
  | cons first rest ih =>
      rw [putEntry]
      split_ifs with same
      · have apart : first.id ≠ id := same ▸ other
        rw [List.find?_cons_of_neg (by simpa using other),
          List.find?_cons_of_neg (by simpa using apart)]
      · by_cases this : first.id = id
        · rw [List.find?_cons_of_pos (by simpa using this),
            List.find?_cons_of_pos (by simpa using this)]
        · rw [List.find?_cons_of_neg (by simpa using this),
            List.find?_cons_of_neg (by simpa using this), ih]

theorem ids_put (entry : Entry) (entries : List Entry) :
    (putEntry entry entries).map Entry.id =
      if entry.id ∈ entries.map Entry.id then entries.map Entry.id
      else entries.map Entry.id ++ [entry.id] := by
  induction entries with
  | nil => rfl
  | cons first rest ih =>
      rw [putEntry]
      split_ifs with same known known
      · rw [List.map_cons, List.map_cons, same]
      · exact absurd (same ▸ List.mem_cons_self) known
      · have later := (List.mem_cons.mp known).resolve_left (Ne.symm same)
        rw [List.map_cons, List.map_cons, ih, if_pos later]
      · have later : entry.id ∉ rest.map Entry.id := fun member =>
          known (List.mem_cons_of_mem _ member)
        rw [List.map_cons, List.map_cons, ih, if_neg later, List.cons_append]

/-- No two entries have one id. -/
def Distinct (index : VectorIndex) : Prop := (index.entries.map Entry.id).Nodup

theorem distinct_step (index : VectorIndex) (call : IndexCall) (distinct : Distinct index) :
    Distinct (index.step call) := by
  cases call with
  | add id vector snippet =>
      rw [Distinct, VectorIndex.step, VectorIndex.add, ids_put]
      split_ifs with known
      · exact distinct
      · exact distinct.append (List.nodup_singleton _)
          (List.disjoint_singleton.mpr known)
  | remove id => exact distinct.sublist (List.filter_sublist.map Entry.id)

theorem mem_put {entry other : Entry} (member : other ∈ putEntry entry entries) :
    other = entry ∨ other ∈ entries := by
  induction entries with
  | nil => exact .inl (List.mem_singleton.mp member)
  | cons first rest ih =>
      rw [putEntry] at member
      split_ifs at member
      · rcases List.mem_cons.mp member with this | later
        · exact .inl this
        · exact .inr (List.mem_cons_of_mem _ later)
      · rcases List.mem_cons.mp member with this | later
        · exact .inr (this ▸ List.mem_cons_self)
        · exact (ih later).imp_right (List.mem_cons_of_mem _)

theorem find_step (index : VectorIndex) (call : IndexCall) (old : Option Entry)
    (same : index.entries.find? (·.id = id) = old) :
    (index.step call).entries.find? (·.id = id) = overwrite (IndexCall.touch id) old call := by
  cases call with
  | add other vector snippet =>
      rw [VectorIndex.step, VectorIndex.add, overwrite, IndexCall.touch]
      split_ifs with this
      · subst this
        exact find_put_same ⟨other, vector, snippet⟩ index.entries
      · exact (find_put_other this index.entries).trans same
  | remove other =>
      rw [VectorIndex.step, VectorIndex.remove, overwrite, IndexCall.touch, List.find?_filter]
      split_ifs with this
      · refine List.find?_eq_none.mpr fun entry _ => ?_
        subst this
        simp
      · refine Eq.trans (congrFun (congrArg List.find? (funext fun entry => ?_)) _) same
        by_cases found : entry.id = id
        · have kept : entry.id ≠ other := fun named => this (named.symm.trans found)
          simpa [found] using found ▸ kept
        · simp [found]

theorem sized_step (dim : Nat) (index : VectorIndex) (call : IndexCall) (size : call.Sized dim)
    (sized : index.dim = dim ∧ index.Sized) :
    (index.step call).dim = dim ∧ (index.step call).Sized := by
  obtain ⟨rfl, vectors⟩ := sized
  cases call with
  | add other vector snippet =>
      refine ⟨rfl, fun entry member => ?_⟩
      rcases mem_put member with rfl | old
      · exact size
      · exact vectors entry old
  | remove other => exact ⟨rfl, fun entry member => vectors entry (List.mem_of_mem_filter member)⟩

/-- With distinct ids, the entries are what is found under their ids. -/
theorem find_iff_mem {index : VectorIndex} (distinct : Distinct index) (entry : Entry) :
    index.entries.find? (·.id = entry.id) = some entry ↔ entry ∈ index.entries := by
  constructor
  · exact List.mem_of_find?_eq_some
  · intro member
    have present : (index.entries.find? (·.id = entry.id)).isSome :=
      List.find?_isSome.mpr ⟨entry, member, by simp⟩
    obtain ⟨found, there⟩ := Option.isSome_iff_exists.mp present
    have named : found.id = entry.id := by simpa using List.find?_some there
    have same := List.inj_on_of_nodup_map distinct (List.mem_of_find?_eq_some there) member named
    rw [there, same]

theorem touch_none_iff (call : IndexCall) : call.touch id = none ↔ call.id ≠ id := by
  cases call with
  | add other vector snippet =>
      rw [IndexCall.touch, IndexCall.id]
      split_ifs with this
      · exact iff_of_false not_false (not_not_intro this)
      · exact iff_of_true rfl this
  | remove other =>
      rw [IndexCall.touch, IndexCall.id]
      split_ifs with this
      · exact iff_of_false not_false (not_not_intro this)
      · exact iff_of_true rfl this

theorem touch_some {call : IndexCall} {entry : Entry}
    (touched : call.touch id = some (some entry)) :
    id = entry.id ∧ call = .add entry.id entry.vector entry.snippet := by
  cases call with
  | add other vector snippet =>
      rw [IndexCall.touch] at touched
      split_ifs at touched with this
      cases touched
      exact ⟨this.symm, rfl⟩
  | remove other =>
      rw [IndexCall.touch] at touched
      split_ifs at touched
      cases touched

end Calls

/-- After any calls the ids are distinct, the entries are what was last added and not removed, and
the index comes back from its bytes exactly where its counts fit. -/
theorem index_round_trip_iff (dim : Nat) (calls : List IndexCall)
    (sizes : ∀ call ∈ calls, call.Sized dim) :
    let index := run VectorIndex.step (VectorIndex.new dim) calls
    Distinct index ∧
      (∀ entry, entry ∈ index.entries ↔ ∃ before after,
        calls = before ++ .add entry.id entry.vector entry.snippet :: after ∧
          ∀ later ∈ after, later.id ≠ entry.id) ∧
      (VectorIndex.decode index.encode = .ok index ↔ index.Fits) := by
  have distinct : Distinct (run VectorIndex.step (VectorIndex.new dim) calls) :=
    run_invariant VectorIndex.step Distinct distinct_step _ calls List.nodup_nil
  have sized : (run VectorIndex.step (VectorIndex.new dim) calls).dim = dim ∧
      (run VectorIndex.step (VectorIndex.new dim) calls).Sized :=
    List.foldlRecOn calls VectorIndex.step ⟨rfl, List.forall_mem_nil _⟩
      fun index sized call member => sized_step dim index call (sizes call member) sized
  refine ⟨distinct, fun entry => ?_, VectorIndex.decode_encode_iff _ sized.2⟩
  have found := run_agrees (IndexCall.touch entry.id)
    (fun index old => index.entries.find? (·.id = entry.id) = old) calls
    (fun call _ index old => find_step index call old) (VectorIndex.new dim) none rfl
  rw [← find_iff_mem distinct, found]
  refine (last_write_iff calls entry).trans ?_
  simp only [touch_none_iff]
  constructor
  · rintro ⟨before, call, after, split, touched, others⟩
    obtain ⟨_, rfl⟩ := touch_some touched
    exact ⟨before, after, split, others⟩
  · rintro ⟨before, after, split, others⟩
    exact ⟨before, _, after, split, if_pos rfl, others⟩

/-- Adding, replacing and removing. -/
def sampleIndexCalls : List IndexCall :=
  [.add "a" [0x3F800000, 0] "first", .add "b" [0, 0x7FC00001] "second",
    .add "a" [0x80000000, 0x3F000000] "again", .remove "b", .remove "c"]

theorem sample_index_round_trip :
    let index := run VectorIndex.step (VectorIndex.new 2) sampleIndexCalls
    Distinct index ∧
      (∀ entry, entry ∈ index.entries ↔ ∃ before after,
        sampleIndexCalls = before ++ .add entry.id entry.vector entry.snippet :: after ∧
          ∀ later ∈ after, later.id ≠ entry.id) ∧
      (VectorIndex.decode index.encode = .ok index ↔ index.Fits) :=
  index_round_trip_iff 2 sampleIndexCalls (by simp [sampleIndexCalls, IndexCall.Sized])

/-- A dimension of 2^32 is read back as none. -/
theorem wide_index_narrowed : ¬ ∀ dim calls, (∀ call ∈ calls, IndexCall.Sized dim call) →
    VectorIndex.decode (run VectorIndex.step (VectorIndex.new dim) calls).encode =
      .ok (run VectorIndex.step (VectorIndex.new dim) calls) := by
  intro always
  have decoded := always (2 ^ 32) [] (List.forall_mem_nil _)
  have fits := (VectorIndex.decode_encode_iff (VectorIndex.new (2 ^ 32))
    (List.forall_mem_nil _)).mp decoded
  exact Nat.lt_irrefl _ fits.1

end HorizonOs.Aura
