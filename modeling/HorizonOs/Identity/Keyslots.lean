import HorizonOs.Lifestream.Sample

/-!
# Keyslots

The master sealed under a secret that an authenticator gives for a credential and a salt, and
the file that holds one such slot for each enrolled device. Credential ids are whatever the
device returns; the file says their lengths, and how many slots there are, in one byte each.
-/

namespace HorizonOs.Identity

open HorizonOs.Lib.ByteCodec
open HorizonOs.Lifestream (Crypto Key Nonce)

set_option autoImplicit false

inductive Error where
  | crypto
  | unlock
  | noMatchingKeyslot
  | malformed (message : String)
  | device (message : String)
  deriving DecidableEq

def Error.display : Error → String
  | .crypto => "crypto error"
  | .unlock => "could not unlock this keyslot (wrong authenticator or corrupted slot)"
  | .noMatchingKeyslot => "no enrolled keyslot matched the authenticator"
  | .malformed message => s!"malformed keyslot data: {message}"
  | .device message => s!"authenticator error: {message}"

abbrev CredentialId := Bytes
abbrev Salt := FixedBytes 32

/-- A device that gives a secret for a credential it holds, and may change as it does. -/
structure Authenticator (State : Type) where
  makeCredential : EStateM Error State CredentialId
  hmacSecret : CredentialId → Salt → EStateM Error State Key

structure Keyslot where
  cred : CredentialId
  salt : Salt
  nonce : Nonce
  sealedMaster : Bytes
  deriving DecidableEq

/-- The keyslots of a store, in the order they were added. -/
abbrev Keyslots := List Keyslot

def version : UInt8 := 1
def wrapContext : String := "horizon identity fido2 wrap v1"

section Device

variable {State : Type}

/-- `Keyslot::seal`: the credential is bound in as associated data. -/
def Keyslot.sealing (crypto : Crypto) (cred : CredentialId) (salt : Salt) (master secret : Key)
    (nonce : Nonce) : Except Error Keyslot :=
  match crypto.encrypt (crypto.deriveKey wrapContext secret) nonce cred master.bytes with
  | some sealedMaster => .ok { cred, salt, nonce, sealedMaster }
  | none => .error .crypto

/-- `Keyslot::unlock`. -/
def Keyslot.unlock (crypto : Crypto) (auth : Authenticator State) (slot : Keyslot) :
    EStateM Error State Key := do
  let secret ← auth.hmacSecret slot.cred slot.salt
  match crypto.decrypt (crypto.deriveKey wrapContext secret) slot.nonce slot.cred
    slot.sealedMaster with
  | some plaintext =>
      if size : plaintext.length = 32 then pure ⟨plaintext, size⟩ else throw .unlock
  | none => throw .unlock

/-- The first slot that opens; the others are skipped. -/
def unlockAny (crypto : Crypto) (auth : Authenticator State) : Keyslots → EStateM Error State Key
  | [] => throw .noMatchingKeyslot
  | slot :: rest => fun state =>
      match slot.unlock crypto auth state with
      | .ok master after => .ok master after
      | .error _ after => unlockAny crypto auth rest after

/-- `enroll`; the salt and the nonce are drawn at random. -/
def enroll (crypto : Crypto) (auth : Authenticator State) (master : Key) (salt : Salt)
    (nonce : Nonce) : EStateM Error State Keyslot := do
  let cred ← auth.makeCredential
  let secret ← auth.hmacSecret cred salt
  match Keyslot.sealing crypto cred salt master secret nonce with
  | .ok slot => pure slot
  | .error error => throw error

end Device

/-! ## The file -/

/-- `as u8`. -/
def byteOf (length : Nat) : UInt8 := UInt8.ofNat length

def Keyslot.encode (slot : Keyslot) : Bytes :=
  [byteOf slot.cred.length] ++ (slot.cred ++ (slot.salt.bytes ++ (slot.nonce.bytes ++
    ([byteOf slot.sealedMaster.length] ++ slot.sealedMaster))))

def encode (slots : Keyslots) : Bytes :=
  [version, byteOf slots.length] ++ (slots.map Keyslot.encode).flatten

def truncated (what : String) : Error := .malformed s!"truncated {what}"

/-- `Keyslot::decode_from`. -/
def decodeFrom : Reader Error Keyslot := do
  let credLength ← takeU8 (truncated "credential length")
  let cred ← take (truncated "credential") credLength.toNat
  let salt ← takeFixed (truncated "salt") 32
  let nonce ← takeFixed (truncated "nonce") 24
  let sealedLength ← takeU8 (truncated "sealed length")
  let sealedMaster ← take (truncated "sealed") sealedLength.toNat
  pure { cred, salt, nonce, sealedMaster }

/-- What comes behind the last slot is not looked at. -/
def decode : Bytes → Except Error Keyslots
  | found :: count :: rest =>
      if found ≠ version then .error (.malformed s!"unknown version {found}")
      else (takeMany decodeFrom count.toNat rest).map Prod.fst
  | _ => .error (.malformed "too short")

/-! ## What a slot keeps -/

/-- The lengths of a slot fit their bytes. -/
def Keyslot.Fits (slot : Keyslot) : Prop :=
  slot.cred.length ≤ 255 ∧ slot.sealedMaster.length ≤ 255

theorem byte_of_fits (length : Nat) (fits : length ≤ 255) : (byteOf length).toNat = length := by
  rw [byteOf, UInt8.toNat_ofNat', Nat.mod_eq_of_lt (Nat.lt_succ_of_le fits)]

theorem decodes_keyslot (slot : Keyslot) (fits : slot.Fits) :
    Decodes decodeFrom slot.encode slot := by
  have cred := decodes_take_of_length (truncated "credential") slot.cred
    (byteOf slot.cred.length).toNat (byte_of_fits _ fits.1).symm
  have sealedMaster := decodes_take_of_length (truncated "sealed") slot.sealedMaster
    (byteOf slot.sealedMaster.length).toNat (byte_of_fits _ fits.2).symm
  exact (decodes_u8 _ _).bind (cred.bind ((decodes_fixed _ slot.salt).bind
    ((decodes_fixed _ slot.nonce).bind ((decodes_u8 _ _).bind
      (sealedMaster.map fun sealedMaster => { slot with sealedMaster })))))

/-- No slot that is read has a credential that is longer than a byte can say. -/
theorem yields_keyslot : Yields (fun slot => slot.cred.length ≤ 255) decodeFrom := by
  refine (yields_any (takeU8 _)).bind fun credLength _ => ?_
  refine (yields_take _ _).bind fun cred length => ?_
  refine (yields_any (takeFixed _ 32)).bind fun salt _ => ?_
  refine (yields_any (takeFixed _ 24)).bind fun nonce _ => ?_
  refine (yields_any (takeU8 _)).bind fun sealedLength _ => ?_
  refine (yields_any (take _ _)).bind fun sealedMaster _ => Yields.pure ?_
  change cred.length ≤ 255
  rw [length]
  exact Nat.le_of_lt_succ credLength.toNat_lt

theorem decode_encode (slots : Keyslots) (few : slots.length ≤ 255)
    (fits : ∀ slot ∈ slots, slot.Fits) : decode (encode slots) = .ok slots := by
  have count := byte_of_fits slots.length few
  have read := decodes_many decodeFrom Keyslot.encode slots
    (fun slot member => decodes_keyslot slot (fits slot member)) []
  rw [List.append_nil] at read
  rw [encode, List.cons_append, List.cons_append, List.nil_append, decode,
    if_neg (not_not.mpr rfl), count, read]
  rfl

theorem fits_of_decode_encode (slots : Keyslots) (same : decode (encode slots) = .ok slots) :
    slots.length ≤ 255 ∧ ∀ slot ∈ slots, slot.cred.length ≤ 255 := by
  rw [encode, List.cons_append, List.cons_append, List.nil_append, decode,
    if_neg (not_not.mpr rfl)] at same
  cases read : takeMany decodeFrom (byteOf slots.length).toNat (slots.map Keyslot.encode).flatten with
  | error error =>
      rw [read] at same
      cases same
  | ok pair =>
      rw [read] at same
      have found : pair.1 = slots := Except.ok.inj same
      obtain ⟨length, each⟩ := yields_many yields_keyslot _ _ pair.1 pair.2 read
      rw [found] at length each
      refine ⟨?_, each⟩
      rw [length]
      exact Nat.le_of_lt_succ (byteOf slots.length).toNat_lt

/-! ## Enrolled keyslots -/

/-- XChaCha20-Poly1305 appends a tag of 16 bytes to the message. -/
def TagLength (crypto : Crypto) : Prop :=
  ∀ key nonce associated message ciphertext,
    crypto.encrypt key nonce associated message = some ciphertext →
      ciphertext.length = message.length + 16

/-- What `new`, `enroll` and `add` build, with any authenticators. -/
inductive Built (crypto : Crypto) : Keyslots → Prop
  | new : Built crypto []
  | add {State : Type} (auth : Authenticator State) (state after : State) (master : Key)
      (salt : Salt) (nonce : Nonce) (slot : Keyslot) (slots : Keyslots) (built : Built crypto slots)
      (enrolled : enroll crypto auth master salt nonce state = .ok slot after) :
      Built crypto (slots ++ [slot])

theorem enroll_sealed {State : Type} {crypto : Crypto} (tag : TagLength crypto)
    {auth : Authenticator State} {state after : State} {master : Key} {salt : Salt} {nonce : Nonce}
    {slot : Keyslot} (enrolled : enroll crypto auth master salt nonce state = .ok slot after) :
    slot.sealedMaster.length = 48 := by
  simp only [enroll, HorizonOs.Lib.Runs.bind_apply] at enrolled
  split at enrolled
  · next cred between _ =>
    split at enrolled
    · next secret _ _ =>
      rw [Keyslot.sealing] at enrolled
      cases encrypted : crypto.encrypt (crypto.deriveKey wrapContext secret) nonce cred
        master.bytes with
      | none =>
          rw [encrypted] at enrolled
          cases enrolled
      | some sealedMaster =>
          rw [encrypted] at enrolled
          cases enrolled
          have length := tag _ _ _ _ _ encrypted
          rw [master.size] at length
          exact length
    · cases enrolled
  · cases enrolled

theorem built_sealed {crypto : Crypto} (tag : TagLength crypto) {slots : Keyslots}
    (built : Built crypto slots) : ∀ slot ∈ slots, slot.sealedMaster.length = 48 := by
  induction built with
  | new => exact nofun
  | add auth state after master salt nonce slot slots _ enrolled ih =>
      intro other member
      rcases List.mem_append.mp member with earlier | last
      · exact ih other earlier
      · rw [List.mem_singleton.mp last]
        exact enroll_sealed tag enrolled

/-- The file gives enrolled keyslots back exactly where a byte can say how many there are and
how long each credential is. -/
theorem keyslots_round_trip_iff (crypto : Crypto) (tag : TagLength crypto) (slots : Keyslots)
    (built : Built crypto slots) : decode (encode slots) = .ok slots ↔
      slots.length ≤ 255 ∧ ∀ slot ∈ slots, slot.cred.length ≤ 255 := by
  constructor
  · exact fits_of_decode_encode slots
  · rintro ⟨few, short⟩
    apply decode_encode slots few
    intro slot member
    refine ⟨short slot member, ?_⟩
    rw [built_sealed tag built slot member]
    decide

/-! ### A device -/

/-- A cipher with a tag of the documented length, for messages that are not secret. -/
def tagOf (key : Key) (nonce : Nonce) (associated message : Bytes) : Bytes :=
  encodeBE 16 (HorizonOs.Lifestream.sampleMix (key.bytes ++ nonce.bytes ++ associated ++ message))

def tagDecrypt (key : Key) (nonce : Nonce) (associated ciphertext : Bytes) : Option Bytes :=
  let message := ciphertext.drop 16
  if ciphertext.take 16 = tagOf key nonce associated message then some message else none

def tagCrypto : Crypto where
  deriveKey context master := HorizonOs.Lifestream.sampleCrypto.deriveKey context master
  keyedHash := HorizonOs.Lifestream.sampleHash
  encrypt key nonce associated message :=
    if message.length ≤ HorizonOs.Lifestream.maxMessage then
      some (tagOf key nonce associated message ++ message)
    else none
  decrypt := tagDecrypt
  nonceAt count := FixedBytes.ofBytes 24 (encodeBE 24 count)
  encrypt_isSome key nonce associated message short := by simp [short]
  decrypt_encrypt key nonce associated message ciphertext encrypted := by
    split at encrypted
    · cases encrypted
      have size : (tagOf key nonce associated message).length = 16 := encode_be_length _ _
      have front : (tagOf key nonce associated message ++ message).take 16 =
          tagOf key nonce associated message := List.take_left' size
      have back : (tagOf key nonce associated message ++ message).drop 16 = message :=
        List.drop_left' size
      simp only [tagDecrypt, front, back, if_true]
    · contradiction

theorem tag_crypto_length : TagLength tagCrypto := by
  intro key nonce associated message ciphertext encrypted
  simp only [tagCrypto] at encrypted
  split at encrypted
  · cases encrypted
    rw [List.length_append, tagOf, encode_be_length, Nat.add_comm]
  · contradiction

/-- A device that holds one credential, of an id as long as one likes. -/
def lengthy (length : Nat) : Authenticator Unit where
  makeCredential := pure (List.replicate length 7)
  hmacSecret _ salt := pure salt

def sampleEnrolled (length : Nat) : Keyslot where
  cred := List.replicate length 7
  salt := FixedBytes.ofBytes 32 []
  nonce := FixedBytes.ofBytes 24 []
  sealedMaster :=
    let key := tagCrypto.deriveKey wrapContext (FixedBytes.ofBytes 32 [])
    let master := (FixedBytes.ofBytes 32 [9]).bytes
    tagOf key (FixedBytes.ofBytes 24 []) (List.replicate length 7) master ++ master

theorem sample_built (length : Nat) : Built tagCrypto [sampleEnrolled length] := by
  have master : (FixedBytes.ofBytes 32 [9]).bytes.length ≤ HorizonOs.Lifestream.maxMessage := by
    decide
  refine Built.add (lengthy length) () () (FixedBytes.ofBytes 32 [9]) (FixedBytes.ofBytes 32 [])
    (FixedBytes.ofBytes 24 []) (sampleEnrolled length) [] .new ?_
  simp only [enroll, lengthy, HorizonOs.Lib.Runs.bind_apply, HorizonOs.Lib.Runs.pure_apply,
    Keyslot.sealing, tagCrypto, if_pos master]
  rfl

theorem sample_keyslots_round_trip :
    decode (encode [sampleEnrolled 16]) = .ok [sampleEnrolled 16] ↔
      [sampleEnrolled 16].length ≤ 255 ∧ ∀ slot ∈ [sampleEnrolled 16], slot.cred.length ≤ 255 :=
  keyslots_round_trip_iff tagCrypto tag_crypto_length _ (sample_built 16)

/-- A credential of 256 bytes is written with the length 0. -/
theorem long_credential_lost : ¬∀ (crypto : Crypto) (slots : Keyslots), TagLength crypto →
    Built crypto slots → decode (encode slots) = .ok slots := by
  intro round_trips
  have same := round_trips tagCrypto _ tag_crypto_length (sample_built 256)
  have short := (fits_of_decode_encode _ same).2 (sampleEnrolled 256) List.mem_cons_self
  rw [sampleEnrolled, List.length_replicate] at short
  omega

end HorizonOs.Identity
