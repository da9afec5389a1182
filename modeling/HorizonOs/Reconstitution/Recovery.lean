import HorizonOs.Reconstitution.Shares

/-!
# Any k shares recover the secret

Shares of one split agree in all but their index, which is nonzero and tells them
apart, so `combine` accepts every selection of them, and the first `k` of a
selection have as many values as the polynomials have coefficients.
-/

namespace HorizonOs.Reconstitution

open HorizonOs.Lib.ByteCodec

set_option autoImplicit false

variable (deriveKey : DeriveKey)

/-- A polynomial drawn for a byte: the byte first, then `k - 1` random bytes. -/
def Drawn (k : UInt8) (b : UInt8) (c : Bytes) : Prop :=
  ∃ tail : Bytes, c = b :: tail ∧ tail.length = k.toNat - 1

theorem draw_coeffs (k : UInt8) (secret : Bytes) (random : Random) :
    List.Forall₂ (Drawn k) secret (drawCoeffs k secret random) := by
  induction secret generalizing random with
  | nil => exact .nil
  | cons b secret ih =>
      refine .cons ⟨_, rfl, ?_⟩ (ih _)
      exact (List.length_map _).trans List.length_range

/-- The indices `split` gives out: nonzero bytes. -/
def IsShare (id : FixedBytes 4) (k : UInt8) (tag : FixedBytes tagLength) (coeffs : List Bytes)
    (s : Share) : Prop :=
  ∃ x, 1 ≤ x ∧ x ≤ 255 ∧ s = shareAt Gf.new id k tag coeffs x

section Shares

variable {id : FixedBytes 4} {k : UInt8} {tag : FixedBytes tagLength} {coeffs : List Bytes}

theorem IsShare.eq {s : Share} (share : IsShare id k tag coeffs s) :
    s = ⟨id, k, s.x, tag, coeffs.map fun c => Gf.new.eval c s.x⟩ := by
  obtain ⟨x, _, _, rfl⟩ := share
  rfl

theorem issued (n : UInt8) :
    ∀ s ∈ (List.range' 1 n.toNat).map (shareAt Gf.new id k tag coeffs),
      IsShare id k tag coeffs s := by
  intro s member
  obtain ⟨x, inside, rfl⟩ := List.mem_map.mp member
  have below := n.toNat_lt
  rw [List.mem_range'_1] at inside
  exact ⟨x, inside.1, by omega, rfl⟩

theorem IsShare.index {s : Share} (share : IsShare id k tag coeffs s) : s.x ≠ 0 := by
  obtain ⟨x, low, high, rfl⟩ := share
  intro zero
  have number := congrArg UInt8.toNat zero
  rw [shareAt, UInt8.toNat_ofNat', Nat.mod_eq_of_lt (by omega)] at number
  exact absurd number (Nat.ne_of_gt low)

/-- Different shares of a split have different indices. -/
theorem indices_nodup {selection : List Share} (nodup : selection.Nodup)
    (all : ∀ s ∈ selection, IsShare id k tag coeffs s) : (selection.map (·.x)).Nodup := by
  apply List.Nodup.map_on _ nodup
  intro s member other otherMember same
  rw [(all s member).eq, (all other otherMember).eq, same]

theorem check_set_shares (first : Share) (isShare : IsShare id k tag coeffs first)
    (selection : List Share) (all : ∀ s ∈ selection, IsShare id k tag coeffs s)
    (nodup : selection.Nodup) (seen : List UInt8) (new : ∀ s ∈ selection, s.x ∉ seen) :
    checkSet first seen selection = .ok () := by
  induction selection generalizing seen with
  | nil => rfl
  | cons s selection ih =>
      have share := all s List.mem_cons_self
      have agrees : ¬(s.id ≠ first.id ∨ s.k ≠ first.k ∨ s.tag ≠ first.tag ∨
          s.y.length ≠ first.y.length) := by
        rw [share.eq, isShare.eq]
        simp
      have indices := indices_nodup nodup all
      rw [List.map_cons, List.nodup_cons] at indices
      rw [checkSet, if_neg agrees, if_neg share.index, if_neg (new s List.mem_cons_self)]
      apply ih (fun other member => all other (List.mem_cons_of_mem s member))
        (List.nodup_cons.mp nodup).2
      intro other member inside
      rcases List.mem_cons.mp inside with same | before
      · exact indices.1 (same ▸ List.mem_map_of_mem member)
      · exact new other (List.mem_cons_of_mem s member) before

/-- The values of `k` shares at one byte interpolate to it. -/
theorem interpolate_shares {secret : Bytes} (drawn : List.Forall₂ (Drawn k) secret coeffs)
    (positive : 0 < k.toNat) (pts : List Share) (all : ∀ s ∈ pts, IsShare id k tag coeffs s)
    (nodup : pts.Nodup) (enough : k.toNat ≤ pts.length) (byte : Nat) (inside : byte < secret.length) :
    interpolate Gf.new (pts.map (·.x)) (pts.map fun s => s.y.getD byte 0) = secret[byte] := by
  have within : byte < coeffs.length := drawn.length_eq ▸ inside
  obtain ⟨tail, polynomial, size⟩ := drawn.get inside within
  have values : (pts.map fun s => s.y.getD byte 0) =
      (pts.map (·.x)).map (Gf.new.eval (secret[byte] :: tail)) := by
    rw [List.map_map]
    apply List.map_congr_left
    intro s member
    rw [(all s member).eq, List.getD_eq_getElem _ _ (by rwa [List.length_map]), List.getElem_map]
    exact congrArg (Gf.new.eval · s.x) polynomial
  rw [values]
  apply interpolate_eval _ _ _ (indices_nodup nodup all)
  rw [List.length_map, size]
  omega

/-- Enough shares of one split, in any order, rebuild what was split. -/
theorem combine_shares {secret : Bytes} (drawn : List.Forall₂ (Drawn k) secret coeffs)
    (positive : 0 < k.toNat) (selection : List Share)
    (all : ∀ s ∈ selection, IsShare id k (tagOf deriveKey secret) coeffs s)
    (nodup : selection.Nodup) (enough : k.toNat ≤ selection.length) :
    combine deriveKey selection = .ok secret := by
  cases selection with
  | nil => exact absurd enough (Nat.not_le.mpr positive)
  | cons first rest =>
      have share := all first List.mem_cons_self
      have checked := check_set_shares first share (first :: rest) all nodup []
        (fun s _ => List.not_mem_nil)
      have threshold : first.k = k := congrArg Share.k share.eq
      have length : first.y.length = secret.length := by
        rw [share.eq, List.length_map, drawn.length_eq]
      have tag : first.tag = tagOf deriveKey secret := congrArg Share.tag share.eq
      have taken : ∀ s ∈ (first :: rest).take k.toNat,
          IsShare id k (tagOf deriveKey secret) coeffs s :=
        fun s member => all s (List.mem_of_mem_take member)
      have rebuilt : ((List.range first.y.length).map fun byte =>
          interpolate Gf.new (((first :: rest).take k.toNat).map (·.x))
            (((first :: rest).take k.toNat).map fun s => s.y.getD byte 0)) = secret := by
        apply List.ext_getElem
        · rw [List.length_map, List.length_range, length]
        · intro byte left inside
          rw [List.getElem_map, List.getElem_range]
          exact interpolate_shares drawn positive _ taken
            (nodup.sublist (List.take_sublist _ _)) (by rw [List.length_take]; omega) byte inside
      rw [combine, checked]
      simp only [threshold, if_neg (Nat.not_lt.mpr enough), rebuilt, tag]
      rw [if_neg (not_not.mpr rfl)]

end Shares

theorem split_eq (secret : Bytes) (k n : UInt8) (random : Random) (nonempty : secret ≠ [])
    (positive : 1 ≤ k) (within : k ≤ n) :
    split deriveKey secret k n random = .ok ((List.range' 1 n.toNat).map
      (shareAt Gf.new (FixedBytes.ofBytes 4 (fillBytes 4 random).1) k (tagOf deriveKey secret)
        (drawCoeffs k secret (fillBytes 4 random).2))) := by
  have threshold : 0 < k.toNat := UInt8.le_iff_toNat_le.mp positive
  have shares : k.toNat ≤ n.toNat := UInt8.le_iff_toNat_le.mp within
  have parameters : ¬(k = 0 ∨ n = 0) := by
    rintro (zero | zero)
    · rw [zero] at threshold
      exact absurd threshold (Nat.lt_irrefl 0)
    · rw [zero] at shares
      exact absurd (Nat.lt_of_lt_of_le threshold shares) (Nat.lt_irrefl 0)
  rw [split, if_neg nonempty, if_neg parameters, if_neg (UInt8.not_lt.mpr within)]

/-- Every selection of at least `k` of the shares recovers the secret, whatever was
drawn and in whatever order they are given. -/
theorem any_k_shares_recover (secret : Bytes) (k n : UInt8) (random : Random)
    (nonempty : secret ≠ []) (positive : 1 ≤ k) (within : k ≤ n) :
    ∃ shares, split deriveKey secret k n random = .ok shares ∧
      shares.length = n.toNat ∧
      ∀ selection : List Share, selection.Nodup → (∀ s ∈ selection, s ∈ shares) →
        k.toNat ≤ selection.length → combine deriveKey selection = .ok secret := by
  refine ⟨_, split_eq deriveKey secret k n random nonempty positive within, ?_, ?_⟩
  · rw [List.length_map, List.length_range']
  · intro selection nodup chosen enough
    exact combine_shares deriveKey (draw_coeffs k secret _) (UInt8.le_iff_toNat_le.mp positive)
      selection (fun s member => issued n s (chosen s member)) nodup enough

/-- A derivation that keeps the first bytes, for samples. -/
def firstBytes : DeriveKey := fun _ secret => FixedBytes.ofBytes 32 secret

theorem any_k_shares_recover_sample :
    ∃ shares, split firstBytes [7, 200] 2 3 UInt8.ofNat = .ok shares ∧
      shares.length = 3 ∧
      ∀ selection : List Share, selection.Nodup → (∀ s ∈ selection, s ∈ shares) →
        2 ≤ selection.length → combine firstBytes selection = .ok [7, 200] :=
  any_k_shares_recover firstBytes [7, 200] 2 3 UInt8.ofNat (by decide) (by decide) (by decide)

end HorizonOs.Reconstitution
