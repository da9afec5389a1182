import HorizonOs.Lib.Text
import HorizonOs.Reconstitution.Corruption

/-!
# Shares as text

The portable form of a share has one byte for the length of its values, and the decoder
refuses a share of another length. A secret of more than 255 bytes is split all the same.
-/

namespace HorizonOs.Reconstitution

open HorizonOs.Lib.ByteCodec HorizonOs.Lib.Text

set_option autoImplicit false

def version : UInt8 := 1

/-- Version, id, threshold, index, tag, then the values behind their length. -/
def Share.encode (share : Share) : Bytes :=
  [version] ++ (share.id.bytes ++ ([share.k] ++ ([share.x] ++ (share.tag.bytes ++
    ([UInt8.ofNat share.y.length] ++ share.y)))))

def head : Nat := 1 + 4 + 1 + 1 + tagLength + 1

/-- The bytes `buf[start..stop]`. -/
def field (buf : Bytes) (start stop : Nat) : Bytes := (buf.take stop).drop start

def Share.decode (buf : Bytes) : Except Error Share :=
  if buf.length < head then .error (.malformed "too short")
  else if buf.getD 0 0 ≠ version then
    .error (.malformed s!"unknown version {(buf.getD 0 0).toNat}")
  else
    let id := FixedBytes.ofBytes 4 (field buf 1 5)
    let k := buf.getD 5 0
    let x := buf.getD 6 0
    let tag := FixedBytes.ofBytes tagLength (field buf 7 (7 + tagLength))
    let ylen := (buf.getD (7 + tagLength) 0).toNat
    let y := buf.drop head
    if y.length ≠ ylen then .error (.malformed "length does not match body")
    else if k = 0 then .error (.malformed "threshold is zero")
    else if x = 0 then .error (.malformed "index is zero")
    else .ok { id, k, x, tag, y }

def Share.toHex (share : Share) : String := encodeHex share.encode

def Share.fromHex (s : String) : Except Error Share :=
  match decodeHexChars (trim s).toList with
  | none => .error (.malformed "not hex")
  | some bytes => Share.decode bytes

/-! ## Round trips -/

theorem field_append (front bytes back : Bytes) (start stop : Nat) (before : front.length = start)
    (size : start + bytes.length = stop) : field (front ++ (bytes ++ back)) start stop = bytes := by
  subst before size
  rw [field, ← List.append_assoc, ← List.length_append, List.take_left, List.drop_left]

theorem byte_append (front back : Bytes) (byte : UInt8) (i : Nat) (before : front.length = i) :
    (front ++ byte :: back).getD i 0 = byte := by
  subst before
  rw [List.getD_eq_getElem?_getD, List.getElem?_append_right le_rfl, Nat.sub_self]
  rfl

section Fields

variable (share : Share)

theorem length_encode_share : share.encode.length = head + share.y.length := by
  simp only [Share.encode, List.length_append, List.length_singleton, FixedBytes.size, head]
  omega

theorem encoded_id : field share.encode 1 5 = share.id.bytes :=
  field_append [version] share.id.bytes _ 1 5 rfl (by rw [share.id.size])

theorem encoded_threshold : share.encode.getD 5 0 = share.k := by
  rw [Share.encode, ← List.append_assoc]
  apply byte_append
  rw [List.length_append, share.id.size, List.length_singleton]

theorem encoded_index : share.encode.getD 6 0 = share.x := by
  rw [Share.encode, ← List.append_assoc, ← List.append_assoc]
  apply byte_append
  simp only [List.length_append, List.length_singleton, FixedBytes.size]

theorem encoded_tag : field share.encode 7 (7 + tagLength) = share.tag.bytes := by
  rw [Share.encode, ← List.append_assoc, ← List.append_assoc, ← List.append_assoc]
  apply field_append
  · simp only [List.length_append, List.length_singleton, FixedBytes.size]
  · rw [share.tag.size]

theorem encoded_length : share.encode.getD (7 + tagLength) 0 = UInt8.ofNat share.y.length := by
  rw [Share.encode, ← List.append_assoc, ← List.append_assoc, ← List.append_assoc,
    ← List.append_assoc]
  apply byte_append
  simp only [List.length_append, List.length_singleton, FixedBytes.size]

theorem encoded_values : share.encode.drop head = share.y := by
  rw [Share.encode, ← List.append_assoc, ← List.append_assoc, ← List.append_assoc,
    ← List.append_assoc, ← List.append_assoc]
  apply List.drop_left'
  simp only [List.length_append, List.length_singleton, FixedBytes.size, head]

/-- A share with a threshold and an index comes back when one byte counts its values. -/
theorem decode_encode_share_iff (threshold : share.k ≠ 0) (index : share.x ≠ 0) :
    Share.decode share.encode = .ok share ↔ share.y.length < 256 := by
  have long : ¬share.encode.length < head := by
    rw [length_encode_share]
    omega
  have first : share.encode.getD 0 0 = version := rfl
  have count : share.y.length ≠ (UInt8.ofNat share.y.length).toNat ↔ ¬share.y.length < 256 := by
    rw [UInt8.toNat_ofNat']
    omega
  rw [Share.decode, if_neg long, if_neg (not_not.mpr first)]
  simp only [encoded_id, encoded_threshold, encoded_index, encoded_tag, encoded_length,
    encoded_values, count, if_neg threshold, if_neg index, fixed_of_bytes _ _ (FixedBytes.size _)]
  by_cases fits : share.y.length < 256
  · rw [if_neg (not_not.mpr fits)]
    exact iff_of_true rfl fits
  · rw [if_pos fits]
    exact iff_of_false (fun same => by cases same) fits

theorem from_hex_to_hex_share : Share.fromHex share.toHex = Share.decode share.encode := by
  have solid : (trim share.toHex).toList = encodeHexChars share.encode := by
    rw [trim, Share.toHex, encodeHex, String.toList_ofList, String.toList_ofList]
    exact trim_chars_of_no_space _ (encode_hex_solid share.encode)
  rw [Share.fromHex, solid, decode_encode_hex]

end Fields

/-- The shares of a split go through their portable forms exactly when the secret has at
most 255 bytes. -/
theorem share_wire_round_trip_iff (deriveKey : DeriveKey) (secret : Bytes) (k n : UInt8)
    (random : Random) (shares : List Share)
    (made : split deriveKey secret k n random = .ok shares) (share : Share)
    (member : share ∈ shares) :
    (Share.decode share.encode = .ok share ∧ Share.fromHex share.toHex = .ok share) ↔
      secret.length ≤ 255 := by
  obtain ⟨nonempty, positive, within⟩ := split_ok made
  rw [split_eq deriveKey secret k n random nonempty positive within] at made
  cases made
  have issued := issued n share member
  have values : share.y.length = secret.length := by
    rw [issued.eq, List.length_map, (draw_coeffs k secret _).length_eq]
  have threshold : share.k ≠ 0 := by
    rw [issued.eq]
    rintro rfl
    exact absurd positive (by decide)
  rw [from_hex_to_hex_share, and_self, decode_encode_share_iff share threshold issued.index, values]
  exact Nat.lt_succ_iff

theorem share_wire_round_trip_sample :
    (Share.decode (shareAt Gf.new (FixedBytes.ofBytes 4 [0, 1, 2, 3]) 2
        (tagOf firstBytes [7, 200]) [[7, 4], [200, 5]] 3).encode =
          .ok (shareAt Gf.new (FixedBytes.ofBytes 4 [0, 1, 2, 3]) 2
            (tagOf firstBytes [7, 200]) [[7, 4], [200, 5]] 3) ∧
      Share.fromHex (shareAt Gf.new (FixedBytes.ofBytes 4 [0, 1, 2, 3]) 2
        (tagOf firstBytes [7, 200]) [[7, 4], [200, 5]] 3).toHex =
          .ok (shareAt Gf.new (FixedBytes.ofBytes 4 [0, 1, 2, 3]) 2
            (tagOf firstBytes [7, 200]) [[7, 4], [200, 5]] 3)) ↔
      ([7, 200] : Bytes).length ≤ 255 :=
  share_wire_round_trip_iff firstBytes [7, 200] 2 3 UInt8.ofNat sampleShares (by decide +kernel) _
    (List.mem_map_of_mem (by decide))

/-- The one share of a secret of 256 bytes cannot be read again. -/
theorem long_secret_share_lost : ¬∀ (deriveKey : DeriveKey) (secret : Bytes) (k n : UInt8)
    (random : Random) (shares : List Share), split deriveKey secret k n random = .ok shares →
      ∀ share ∈ shares,
        Share.decode share.encode = .ok share ∧ Share.fromHex share.toHex = .ok share := by
  intro holds
  have made := split_eq firstBytes (List.replicate 256 7) 1 1 UInt8.ofNat
    (List.cons_ne_nil 7 (List.replicate 255 7)) (by decide) (by decide)
  have share := holds firstBytes (List.replicate 256 7) 1 1 UInt8.ofNat _ made _
    (List.mem_map_of_mem (List.mem_range'_1.mpr ⟨le_rfl, by decide⟩))
  have short := (decode_encode_share_iff _ (by decide) (by decide)).mp share.1
  rw [shareAt, List.length_map, ← (draw_coeffs 1 (List.replicate 256 7) _).length_eq,
    List.length_replicate] at short
  exact Nat.lt_irrefl 256 short

end HorizonOs.Reconstitution
