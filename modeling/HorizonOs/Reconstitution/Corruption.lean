import HorizonOs.Reconstitution.Recovery

/-!
# A corrupted share

A byte of the secret is a sum of the shares' bytes, each times a weight that is not
zero. A changed byte of one share therefore changes that byte of what `combine`
rebuilds, and no other.
-/

namespace HorizonOs.Reconstitution

open HorizonOs.Lib.ByteCodec HorizonOs.Lib.SecretSharing

set_option autoImplicit false

/-! ## The weights -/

theorem node_ne_zero (xs : List UInt8) (nonzero : ∀ x ∈ xs, x ≠ 0) (i : Nat)
    (inside : i < xs.length) : node xs i ≠ 0 := by
  rw [node, List.getD_eq_getElem _ _ inside, Ne, gf_eq_zero]
  exact nonzero _ (List.getElem_mem inside)

/-- Two lists of values that differ at one place differ when interpolated. -/
theorem interpolate_changed_iff (xs ys : List UInt8) (distinct : xs.Nodup)
    (nonzero : ∀ x ∈ xs, x ≠ 0) (size : ys.length = xs.length) (i : Nat) (inside : i < xs.length)
    (b : UInt8) :
    interpolate Gf.new xs (ys.set i b) = interpolate Gf.new xs ys ↔ b = ys.getD i 0 := by
  have injective := node_injective xs distinct
  have before := interpolate_range xs ys injective xs.length le_rfl
  have after := interpolate_range xs (ys.set i b) injective xs.length le_rfl
  have weight : weightAtZero (Finset.range xs.length) (node xs) i ≠ 0 := by
    apply weight_at_zero_ne_zero _ _ injective _ i (Finset.mem_range.mpr inside)
    intro j member
    exact node_ne_zero xs nonzero j (Finset.mem_range.mp member)
  have here : i ∈ Finset.range xs.length := Finset.mem_range.mpr inside
  have others : ∀ j ∈ (Finset.range xs.length).erase i,
      node (ys.set i b) j * weightAtZero (Finset.range xs.length) (node xs) j =
        node ys j * weightAtZero (Finset.range xs.length) (node xs) j := by
    intro j member
    have apart := (Finset.mem_erase.mp member).1
    rw [node, List.getD_eq_getElem?_getD, List.getElem?_set_ne (Ne.symm apart),
      ← List.getD_eq_getElem?_getD, node]
  rw [← Finset.add_sum_erase _ _ here] at before after
  rw [Finset.sum_congr rfl others] at after
  have changed : node (ys.set i b) i = ⟨b⟩ := by
    rw [node, List.getD_eq_getElem _ _ (by rwa [List.length_set, size]), List.getElem_set_self]
  rw [changed] at after
  have bytes : interpolate Gf.new xs (ys.set i b) = interpolate Gf.new xs ys ↔
      (⟨interpolate Gf.new xs (ys.set i b)⟩ : GfByte) = ⟨interpolate Gf.new xs ys⟩ :=
    ⟨congrArg GfByte.mk, congrArg GfByte.byte⟩
  rw [bytes, interpolate, interpolate, after, before, add_left_inj, mul_left_inj' weight, node]
  exact ⟨congrArg GfByte.byte, congrArg GfByte.mk⟩

/-! ## What is rebuilt -/

/-- The loop of `combine` over the bytes of the secret. -/
def rebuild (pts : List Share) (size : Nat) : Bytes :=
  (List.range size).map fun byte =>
    interpolate Gf.new (pts.map (·.x)) (pts.map fun s => s.y.getD byte 0)

theorem length_rebuild (pts : List Share) (size : Nat) : (rebuild pts size).length = size := by
  rw [rebuild, List.length_map, List.length_range]

theorem rebuild_get (pts : List Share) (size byte : Nat) (inside : byte < size) :
    (rebuild pts size).getD byte 0 =
      interpolate Gf.new (pts.map (·.x)) (pts.map fun s => s.y.getD byte 0) := by
  rw [List.getD_eq_getElem _ _ (by rwa [length_rebuild])]
  simp only [rebuild, List.getElem_map, List.getElem_range]

/-- What the check of a set looks at in a share. -/
def Share.shape (s : Share) : FixedBytes 4 × UInt8 × UInt8 × FixedBytes tagLength × Nat :=
  (s.id, s.k, s.x, s.tag, s.y.length)

theorem check_set_shape (first other : Share) (same : first.shape = other.shape)
    (left right : List Share) (shapes : left.map Share.shape = right.map Share.shape)
    (seen : List UInt8) : checkSet first seen left = checkSet other seen right := by
  simp only [Share.shape, Prod.mk.injEq] at same
  induction left generalizing right seen with
  | nil =>
      cases List.map_eq_nil_iff.mp shapes.symm
      rfl
  | cons s left ih =>
      cases right with
      | nil => cases shapes
      | cons t right =>
          rw [List.map_cons, List.map_cons, List.cons.injEq] at shapes
          have alike := shapes.1
          simp only [Share.shape, Prod.mk.injEq] at alike
          rw [checkSet, checkSet, alike.1, alike.2.1, alike.2.2.1, alike.2.2.2.1, alike.2.2.2.2,
            same.1, same.2.1, same.2.2.2.1, same.2.2.2.2, ih right shapes.2]

/-- A set of enough shares that passes the check is judged by the tag of what it rebuilds. -/
theorem combine_checked (deriveKey : DeriveKey) (first : Share) (rest : List Share)
    (checked : checkSet first [] (first :: rest) = .ok ())
    (enough : first.k.toNat ≤ (first :: rest).length) :
    combine deriveKey (first :: rest) =
      if tagOf deriveKey (rebuild ((first :: rest).take first.k.toNat) first.y.length) = first.tag
      then .ok (rebuild ((first :: rest).take first.k.toNat) first.y.length)
      else .error .integrity := by
  rw [combine, checked]
  simp only [if_neg (Nat.not_lt.mpr enough)]
  by_cases agrees : tagOf deriveKey
      (rebuild ((first :: rest).take first.k.toNat) first.y.length) = first.tag
  · rw [if_pos agrees]
    exact if_neg (not_not.mpr agrees)
  · rw [if_neg agrees]
    exact if_pos agrees

theorem split_ok {deriveKey : DeriveKey} {secret : Bytes} {k n : UInt8} {random : Random}
    {shares : List Share} (made : split deriveKey secret k n random = .ok shares) :
    secret ≠ [] ∧ 1 ≤ k ∧ k ≤ n := by
  rw [split] at made
  split_ifs at made with empty parameters beyond
  have positive : 0 < k.toNat := by
    apply Nat.pos_of_ne_zero
    exact fun zero => parameters (.inl (UInt8.toNat_inj.mp zero))
  exact ⟨empty, UInt8.le_iff_toNat_le.mpr positive, UInt8.not_lt.mp beyond⟩

/-! ## A changed share -/

section Changed

variable {id : FixedBytes 4} {k : UInt8} {tag : FixedBytes tagLength} {coeffs : List Bytes}

/-- With one of its shares changed, a selection rebuilds the secret but for the bytes
that were changed. -/
theorem rebuild_changed {secret : Bytes} (drawn : List.Forall₂ (Drawn k) secret coeffs)
    (positive : 0 < k.toNat) (pts : List Share) (all : ∀ s ∈ pts, IsShare id k tag coeffs s)
    (nodup : pts.Nodup) (enough : k.toNat ≤ pts.length) (i : Nat) (s : Share)
    (here : pts[i]? = some s) (y : Bytes) (byte : Nat) (inside : byte < secret.length) :
    (rebuild (pts.set i { s with y }) secret.length).getD byte 0 = secret.getD byte 0 ↔
      y.getD byte 0 = s.y.getD byte 0 := by
  obtain ⟨within, found⟩ := List.getElem?_eq_some_iff.mp here
  have indices : (pts.set i { s with y }).map (·.x) = pts.map (·.x) := by
    have listed : i < (pts.map (·.x)).length := by rwa [List.length_map]
    have same : s.x = (pts.map (·.x))[i] := by rw [List.getElem_map, found]
    rw [List.map_set]
    change (pts.map (·.x)).set i s.x = _
    rw [same, List.set_getElem_self]
  have values : ((pts.set i { s with y }).map fun s => s.y.getD byte 0) =
      (pts.map fun s => s.y.getD byte 0).set i (y.getD byte 0) := List.map_set
  have whole := interpolate_shares drawn positive pts all nodup enough byte inside
  have nonzero : ∀ x ∈ pts.map (·.x), x ≠ 0 := by
    intro x member
    obtain ⟨share, listed, rfl⟩ := List.mem_map.mp member
    exact (all share listed).index
  have changed := interpolate_changed_iff (pts.map (·.x)) (pts.map fun s => s.y.getD byte 0)
    (indices_nodup nodup all) nonzero (by rw [List.length_map, List.length_map]) i
    (by rwa [List.length_map]) (y.getD byte 0)
  have value : (pts.map fun s => s.y.getD byte 0).getD i 0 = s.y.getD byte 0 := by
    rw [List.getD_eq_getElem _ _ (by rwa [List.length_map]), List.getElem_map, found]
  rw [rebuild_get _ _ _ inside, indices, values, List.getD_eq_getElem _ _ inside, ← whole, changed,
    value]

end Changed

/-- A change of one of the first `k` shares changes the rebuilt secret in the same bytes,
and is caught unless the tags of the two secrets collide. -/
theorem corrupted_share_caught (deriveKey : DeriveKey) (secret : Bytes) (k n : UInt8)
    (random : Random) (shares : List Share)
    (made : split deriveKey secret k n random = .ok shares) (selection : List Share)
    (nodup : selection.Nodup) (chosen : ∀ s ∈ selection, s ∈ shares)
    (enough : k.toNat ≤ selection.length) (i : Nat) (counted : i < k.toNat) (s : Share)
    (here : selection[i]? = some s) (y : Bytes) (size : y.length = s.y.length)
    (changed : y ≠ s.y) :
    ∃ rebuilt : Bytes, rebuilt.length = secret.length ∧ rebuilt ≠ secret ∧
      (∀ byte < secret.length,
        rebuilt.getD byte 0 ≠ secret.getD byte 0 ↔ y.getD byte 0 ≠ s.y.getD byte 0) ∧
      combine deriveKey (selection.set i { s with y }) =
        if tagOf deriveKey rebuilt = tagOf deriveKey secret then .ok rebuilt
        else .error .integrity := by
  obtain ⟨nonempty, positive, within⟩ := split_ok made
  rw [split_eq deriveKey secret k n random nonempty positive within] at made
  cases made
  have all := fun t member => issued n t (chosen t member)
  have drawn := draw_coeffs k secret (fillBytes 4 random).2
  have threshold : 0 < k.toNat := UInt8.le_iff_toNat_le.mp positive
  have whole : ∀ t ∈ selection, t.y.length = secret.length := by
    intro t member
    rw [(all t member).eq, List.length_map, drawn.length_eq]
  have taken : (selection.take k.toNat)[i]? = some s := by
    rw [List.getElem?_take_of_lt counted, here]
  have bytes := fun byte inside => rebuild_changed drawn threshold (selection.take k.toNat)
    (fun t member => all t (List.mem_of_mem_take member)) (nodup.sublist (List.take_sublist _ _))
    (by rw [List.length_take]; omega) i s taken y byte inside
  refine ⟨rebuild ((selection.take k.toNat).set i { s with y }) secret.length,
    length_rebuild _ _, ?_, fun byte inside => not_congr (bytes byte inside), ?_⟩
  · intro same
    apply changed
    have sizes := size.trans (whole s (List.mem_of_getElem? here))
    apply List.ext_getElem size
    intro byte left right
    have agrees := (bytes byte (by omega)).mp (by rw [same])
    rwa [List.getD_eq_getElem _ _ left, List.getD_eq_getElem _ _ right] at agrees
  · have shapes : (selection.set i { s with y }).map Share.shape = selection.map Share.shape := by
      obtain ⟨inside, found⟩ := List.getElem?_eq_some_iff.mp here
      have listed : i < (selection.map Share.shape).length := by rwa [List.length_map]
      have same : ({ s with y } : Share).shape = (selection.map Share.shape)[i] := by
        rw [List.getElem_map, found, Share.shape, Share.shape, size]
      rw [List.map_set, same, List.set_getElem_self]
    cases selection with
    | nil => exact absurd enough (Nat.not_le.mpr threshold)
    | cons first rest =>
        have firstShare := all first List.mem_cons_self
        have checked := check_set_shares first firstShare (first :: rest) all nodup []
          (fun s _ => List.not_mem_nil)
        rw [← List.take_set]
        cases corrupted : (first :: rest).set i { s with y } with
        | nil =>
            have lengths := congrArg List.length corrupted
            rw [List.length_set, List.length_cons] at lengths
            cases lengths
        | cons other others =>
            rw [corrupted] at shapes
            have alike : other.shape = first.shape := (List.cons.inj shapes).1
            have fields := alike
            rw [firstShare.eq] at fields
            simp only [Share.shape, Prod.mk.injEq, List.length_map, ← drawn.length_eq] at fields
            have count : others.length + 1 = rest.length + 1 := by
              rw [← List.length_cons, ← corrupted, List.length_set, List.length_cons]
            have judged := combine_checked deriveKey other others
              ((check_set_shape other first alike _ _ shapes []).trans checked)
              (by rw [fields.2.1, List.length_cons, count]; exact enough)
            rwa [fields.2.1, fields.2.2.2.1, fields.2.2.2.2] at judged

/-- The shares of a secret of two bytes, any two of which recover it. -/
def sampleShares : List Share :=
  (List.range' 1 3).map (shareAt Gf.new (FixedBytes.ofBytes 4 [0, 1, 2, 3]) 2
    (tagOf firstBytes [7, 200]) [[7, 4], [200, 5]])

/-- The first byte of the second share is changed. -/
theorem corrupted_share_caught_sample :
    ∃ rebuilt : Bytes, rebuilt.length = 2 ∧ rebuilt ≠ [7, 200] ∧
      (∀ byte < 2, rebuilt.getD byte 0 ≠ ([7, 200] : Bytes).getD byte 0 ↔
        ([0, 194] : Bytes).getD byte 0 ≠ ([15, 194] : Bytes).getD byte 0) ∧
      combine firstBytes (sampleShares.set 1 ⟨FixedBytes.ofBytes 4 [0, 1, 2, 3], 2, 2,
          tagOf firstBytes [7, 200], [0, 194]⟩) =
        if tagOf firstBytes rebuilt = tagOf firstBytes [7, 200] then .ok rebuilt
        else .error .integrity :=
  corrupted_share_caught firstBytes [7, 200] 2 3 UInt8.ofNat sampleShares (by decide +kernel)
    sampleShares (by decide) (fun s member => member) (by decide) 1
    (by decide)
    ⟨FixedBytes.ofBytes 4 [0, 1, 2, 3], 2, 2, tagOf firstBytes [7, 200], [15, 194]⟩
    (by decide +kernel) [0, 194] rfl (by decide)

end HorizonOs.Reconstitution
