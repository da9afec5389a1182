import HorizonOs.Lifestream.Object

/-!
# Keys, content addresses and sealed records

The cipher, the keyed hash and the key derivations come from libraries the
store calls. They are a parameter with the two laws the store relies on: a
message within the cipher's size is encrypted, and its ciphertext opens under
the key, nonce and associated data it was made with.
-/

namespace HorizonOs.Lifestream

open HorizonOs.Lib.ByteCodec HorizonOs.Lib.Text

set_option autoImplicit false

abbrev Key := FixedBytes 32
abbrev Nonce := FixedBytes 24

/-- The longest message XChaCha20-Poly1305 takes, in bytes. -/
def maxMessage : Nat := 2 ^ 38 - 64

/-- The cryptographic libraries the store is built on. -/
structure Crypto where
  /-- `blake3::derive_key`, by context string. -/
  deriveKey : String → Key → Key
  /-- `blake3::keyed_hash`. -/
  keyedHash : Key → Bytes → ObjectId
  /-- XChaCha20-Poly1305: key, nonce, associated data, message. -/
  encrypt : Key → Nonce → Bytes → Bytes → Option Bytes
  decrypt : Key → Nonce → Bytes → Bytes → Option Bytes
  /-- What the system's random source yields at each draw. -/
  nonceAt : Nat → Nonce
  /-- The cipher refuses only messages over its documented size, `maxMessage`. -/
  encrypt_isSome : ∀ key nonce associated message,
    message.length ≤ maxMessage → (encrypt key nonce associated message).isSome
  decrypt_encrypt : ∀ key nonce associated message ciphertext,
    encrypt key nonce associated message = some ciphertext →
      decrypt key nonce associated ciphertext = some message

/-- One key to address objects and one to encrypt them. -/
structure Keys where
  addr : Key
  enc : Key
  deriving DecidableEq

def Keys.derive (crypto : Crypto) (master : Key) : Keys where
  addr := crypto.deriveKey "horizon lifestream addr v1" master
  enc := crypto.deriveKey "horizon lifestream enc v1" master

def nonceLength : Nat := 24

/-- The content address: a keyed hash of the plaintext. -/
def Keys.idOf (crypto : Crypto) (keys : Keys) (plaintext : Bytes) : ObjectId :=
  crypto.keyedHash keys.addr plaintext

/-- `Keys::seal`: the record is the nonce followed by the ciphertext, with the
object id bound in as associated data. -/
def Keys.sealRecord (crypto : Crypto) (keys : Keys) (nonce : Nonce) (id : ObjectId)
    (plaintext : Bytes) : Except Error Bytes :=
  match crypto.encrypt keys.enc nonce id.bytes plaintext with
  | some ciphertext => .ok (nonce.bytes ++ ciphertext)
  | none => .error .crypto

/-- `Keys::open`. -/
def Keys.openRecord (crypto : Crypto) (keys : Keys) (id : ObjectId) (record : Bytes) :
    Except Error Bytes :=
  if record.length < nonceLength then .error (.corrupt "short record")
  else
    let nonce := FixedBytes.ofBytes 24 (record.take nonceLength)
    match crypto.decrypt keys.enc nonce id.bytes (record.drop nonceLength) with
    | some plaintext => .ok plaintext
    | none => .error .crypto

theorem open_seal (crypto : Crypto) (keys : Keys) (nonce : Nonce) (id : ObjectId)
    (plaintext record : Bytes)
    (sealedRecord : keys.sealRecord crypto nonce id plaintext = .ok record) :
    keys.openRecord crypto id record = .ok plaintext := by
  unfold Keys.sealRecord at sealedRecord
  cases encrypted : crypto.encrypt keys.enc nonce id.bytes plaintext with
  | none => simp [encrypted] at sealedRecord
  | some ciphertext =>
      rw [encrypted] at sealedRecord
      cases sealedRecord
      have front : (nonce.bytes ++ ciphertext).take nonceLength = nonce.bytes := by
        simp [nonceLength]
      have back : (nonce.bytes ++ ciphertext).drop nonceLength = ciphertext := by
        simp [nonceLength]
      have long : ¬(nonce.bytes ++ ciphertext).length < nonceLength := by
        simp [nonceLength]
      have opened := crypto.decrypt_encrypt _ _ _ _ _ encrypted
      simp only [Keys.openRecord, long, if_false, front, back,
        fixed_of_bytes 24 nonce.bytes nonce.size, opened]

theorem seal_of_short (crypto : Crypto) (keys : Keys) (nonce : Nonce) (id : ObjectId)
    (plaintext : Bytes) (short : plaintext.length ≤ maxMessage) :
    ∃ record, keys.sealRecord crypto nonce id plaintext = .ok record := by
  have encrypted := crypto.encrypt_isSome keys.enc nonce id.bytes plaintext short
  obtain ⟨ciphertext, same⟩ := Option.isSome_iff_exists.mp encrypted
  exact ⟨nonce.bytes ++ ciphertext, by simp only [Keys.sealRecord, same]⟩

end HorizonOs.Lifestream
