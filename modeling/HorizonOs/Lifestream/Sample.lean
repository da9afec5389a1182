import HorizonOs.Lifestream.Graph

/-!
# A store to compute with

An instance of the cryptographic parameter that evaluates: a polynomial hash,
and a cipher that writes key, nonce and associated data in front of the message
and opens only what carries the ones it is given. It keeps no secret; it obeys
the laws the store relies on and refuses a wrong key as the real cipher does.
-/

namespace HorizonOs.Lifestream

open HorizonOs.Lib.ByteCodec HorizonOs.Lib.Text HorizonOs.Lib.Runs

set_option autoImplicit false

def sampleMix (bytes : Bytes) : Nat :=
  bytes.foldl (fun hash byte => (hash * 257 + byte.toNat + 1) % (2 ^ 256 - 189)) 7

def sampleHash (key : Key) (message : Bytes) : ObjectId :=
  FixedBytes.ofBytes 32 (encodeBE 32 (sampleMix (key.bytes ++ message)))

/-- What the sample cipher puts in front of a message. -/
def sampleSeal (key : Key) (nonce : Nonce) (associated : Bytes) : Bytes :=
  key.bytes ++ nonce.bytes ++ associated

def sampleDecrypt (key : Key) (nonce : Nonce) (associated ciphertext : Bytes) : Option Bytes :=
  let front := sampleSeal key nonce associated
  if front.isPrefixOf ciphertext then some (ciphertext.drop front.length) else none

theorem sample_decrypt_seal (key : Key) (nonce : Nonce) (associated message : Bytes) :
    sampleDecrypt key nonce associated (sampleSeal key nonce associated ++ message) =
      some message := by
  have front : (sampleSeal key nonce associated).isPrefixOf
      (sampleSeal key nonce associated ++ message) = true := by
    rw [List.isPrefixOf_iff_prefix]
    exact List.prefix_append _ _
  simp [sampleDecrypt, front]

/-- The sample cipher around a hash of one's choice. -/
def sampleCryptoWith (hash : Key → Bytes → ObjectId) : Crypto where
  deriveKey context master :=
    FixedBytes.ofBytes 32 (encodeBE 32 (sampleMix (utf8 context ++ master.bytes)))
  keyedHash := hash
  encrypt key nonce associated message :=
    if message.length ≤ maxMessage then some (sampleSeal key nonce associated ++ message) else none
  decrypt := sampleDecrypt
  nonceAt count := FixedBytes.ofBytes 24 (encodeBE 24 count)
  encrypt_isSome key nonce associated message short := by simp [short]
  decrypt_encrypt key nonce associated message ciphertext encrypted := by
    split at encrypted
    · cases encrypted
      exact sample_decrypt_seal key nonce associated message
    · contradiction

def sampleCrypto : Crypto := sampleCryptoWith sampleHash

/-- A master key of one repeated byte. -/
def sampleMaster (byte : UInt8) : Key := ⟨List.replicate 32 byte, by simp⟩

def sampleStore : Lifestream := ⟨⟨sampleCrypto, Keys.derive sampleCrypto (sampleMaster 9)⟩⟩

/-- An initialised store without objects. -/
def Device.fresh : Device := { Device.empty with marker := true }

theorem fresh_healthy : Device.fresh.Healthy := ⟨rfl, fun _ => rfl, fun _ => rfl⟩

theorem fresh_sound (store : ObjectStore) : Sound store Device.fresh := by
  intro id record found
  simp [Device.fresh, Device.empty] at found

/-- One commit of the empty tree after the other, each on top of the last. -/
def commitAll (ls : Lifestream) : List String → List ObjectId → StoreM Unit
  | [], _ => pure ()
  | label :: rest, parents => do
      let root ← ls.put (.tree [])
      let id ← ls.commit 0 root parents label
      ls.commitAll rest [id]

/-- A store with these commits. -/
def Device.committed (labels : List String) : Device :=
  finalState (sampleStore.commitAll labels [] Device.fresh)

/-- The generation of such a commit, and its id. -/
def committedGeneration (label : String) (parents : List ObjectId) : Object :=
  .generation { root := sampleStore.store.idOf (Object.tree []).encode, parents, timeUnix := 0,
                label, metaText := "" }

def committedId (label : String) (parents : List ObjectId) : ObjectId :=
  sampleStore.store.idOf (committedGeneration label parents).encode

theorem grows_commit_all (ls : Lifestream) (labels : List String) (parents : List ObjectId) :
    Preserves (Grows ls.store) (ls.commitAll labels parents) := by
  have far : ∀ first second third, Grows ls.store first second → Grows ls.store second third →
      Grows ls.store first third := fun _ _ _ => Grows.trans
  have put : ∀ object, Preserves (Grows ls.store) (ls.put object) :=
    fun object device => (advances_put ls.store object.encode device).toGrows
  have refl : ∀ device, Grows ls.store device device := Grows.refl ls.store
  induction labels generalizing parents with
  | nil => exact Preserves.pure refl ()
  | cons label rest ih =>
      apply (put _).bind far
      intro root
      apply Preserves.bind far
      · apply (put _).bind far
        intro id
        apply Preserves.bind far
        · exact fun device => (set_ref_keeps ls.store headRef id device).1
        · exact fun _ => Preserves.pure refl id
      · exact fun id => ih [id]

theorem committed_grows (labels : List String) :
    Grows sampleStore.store Device.fresh (Device.committed labels) :=
  grows_commit_all sampleStore labels [] Device.fresh

theorem committed_healthy (labels : List String) : (Device.committed labels).Healthy :=
  (committed_grows labels).healthy fresh_healthy

/-- Two disks with the same record wherever both have one. -/
theorem alike_of_shared (ls : Lifestream) {left right : Device}
    (shared : ∀ id ∈ right.listIds, left.objects.lookup id = right.objects.lookup id ∨
      left.objects.lookup id = none) : Alike ls left right := by
  intro id first second plaintext other here there opens opens'
  have present : right.has id = true := by
    rw [Device.has, there]
    rfl
  rcases shared id ((listed_iff right id).mpr present) with same | absent
  · rw [here, there] at same
    cases same
    rw [opens] at opens'
    cases opens'
    rfl
  · rw [absent] at here
    cases here

/-- The objects of a disk open and are closed under links, and its refs are among them. -/
def LinksClosed (ls : Lifestream) (device : Device) : Prop :=
  (∀ id ∈ device.listIds, (ls.contents device id).isSome ∧
      ∀ next ∈ ls.edges device id, next ∈ device.listIds) ∧
    ∀ name ∈ device.listRefs, (device.getRef name).toOption.join.all (· ∈ device.listIds) = true

/-- The byte of a hexadecimal digit. -/
def hexByte (value : Nat) : UInt8 :=
  if value < 10 then UInt8.ofNat (48 + value) else UInt8.ofNat (87 + value)

theorem encode_hex_digit : ∀ value < 16, String.utf8EncodeChar (hexDigit value) = [hexByte value] := by
  decide

theorem ref_text_bytes (id : ObjectId) : refText id =
    id.bytes.flatMap fun byte => [hexByte (byte.toNat / 16), hexByte (byte.toNat % 16)] := by
  rw [refText, ObjectId.toHex, encodeHex, utf8_of_list]
  induction id.bytes with
  | nil => rfl
  | cons byte rest ih =>
      have bound := byte.toNat_lt
      have high : byte.toNat / 16 < 16 := by omega
      have low : byte.toNat % 16 < 16 := by omega
      rw [encodeHexChars, List.flatMap_cons, List.flatMap_cons, List.flatMap_cons, ih,
        encode_hex_digit _ high, encode_hex_digit _ low]
      rfl

/-- Every ref holds the text of an object that is there. -/
def RefsPlain (device : Device) : Prop :=
  ∀ name ∈ device.listRefs, device.unreadableRef name = none ∧
    ∃ id ∈ device.listIds, device.refs.lookup name = some
      (id.bytes.flatMap fun byte => [hexByte (byte.toNat / 16), hexByte (byte.toNat % 16)])

instance (device : Device) : Decidable (RefsPlain device) := List.decidableBAll _ _

theorem RefsPlain.listed {device : Device} (plain : RefsPlain device) :
    ∀ name ∈ device.listRefs,
      (device.getRef name).toOption.join.all (· ∈ device.listIds) = true := by
  intro name member
  obtain ⟨readable, id, here, content⟩ := plain name member
  rw [← ref_text_bytes] at content
  have read : device.getRef name = .ok (some id) := by
    simp only [Device.getRef, content, readable, parse_ref_text]
  rw [read]
  exact decide_eq_true here

/-- Texts of refs are compared as bytes where that is enough, and not parsed. -/
instance (ls : Lifestream) (device : Device) : Decidable (LinksClosed ls device) :=
  if plain : RefsPlain device then
    decidable_of_iff (∀ id ∈ device.listIds, (ls.contents device id).isSome ∧
      ∀ next ∈ ls.edges device id, next ∈ device.listIds) (and_iff_left plain.listed).symm
  else inferInstanceAs (Decidable (_ ∧ _))

theorem LinksClosed.whole {ls : Lifestream} {device : Device} (links : LinksClosed ls device)
    {name : String} {target : ObjectId} (found : device.getRef name = .ok (some target)) :
    Whole ls device target := by
  obtain ⟨closed, named⟩ := links
  intro reached path
  have present : reached ∈ device.listIds := by
    apply path.carries
    · exact fun node member next leads => (closed node member).2 next leads
    · have among : name ∈ device.listRefs := by
        apply AList.mem_keys.mp
        rw [← AList.lookup_isSome]
        unfold Device.getRef at found
        cases content : device.refs.lookup name with
        | none =>
            rw [content] at found
            cases found
        | some text => rfl
      have listed := named name among
      rw [found] at listed
      exact of_decide_eq_true listed
  exact Option.isSome_iff_exists.mp (closed reached present).1

theorem LinksClosed.complete {ls : Lifestream} {device : Device} (links : LinksClosed ls device) :
    ClosureComplete ls device :=
  fun _ _ found => (links.whole found).complete

/-- A store of one commit, and what comes of another on top of it. -/
theorem one_commit_whole (name : String) (target : ObjectId)
    (found : (Device.committed ["one"]).getRef name = .ok (some target)) :
    Whole sampleStore (Device.committed ["one"]) target :=
  LinksClosed.whole (by decide +kernel) found

theorem two_commits_whole (name : String) (target : ObjectId)
    (found : (Device.committed ["one", "two"]).getRef name = .ok (some target)) :
    Whole sampleStore (Device.committed ["one", "two"]) target :=
  LinksClosed.whole (by decide +kernel) found

theorem two_commits_alike :
    Alike sampleStore (Device.committed ["one", "two"]) (Device.committed ["one"]) :=
  alike_of_shared sampleStore (by decide +kernel)

end HorizonOs.Lifestream
