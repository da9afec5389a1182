import Mathlib.Data.List.AList

/-!
# Hash tables

A hash map as an association list without repeated keys, and what `retain` leaves of it.
-/

namespace HorizonOs.Lib.HashTable

set_option autoImplicit false

abbrev Table (κ ν : Type) := AList fun _ : κ => ν

section Retain

variable {κ ν : Type} [DecidableEq κ]

/-- `HashMap::retain`. -/
def retain (keep : κ → ν → Bool) (table : Table κ ν) : Table κ ν where
  entries := table.entries.filter fun entry => keep entry.1 entry.2
  nodupKeys := table.nodupKeys.sublist List.filter_sublist

theorem lookup_retain_iff (keep : κ → ν → Bool) (table : Table κ ν) (k : κ) (v : ν) :
    (retain keep table).lookup k = some v ↔ table.lookup k = some v ∧ keep k v = true := by
  rw [← Option.mem_def, ← Option.mem_def, AList.mem_lookup_iff, AList.mem_lookup_iff, retain,
    List.mem_filter]

/-- A kept entry that is put in leaves what is kept of the others behind it. -/
theorem entries_retain_insert {keep : κ → ν → Bool} {k : κ} {v : ν} (kept : keep k v = true)
    (table : Table κ ν) : (retain keep (table.insert k v)).entries =
      ⟨k, v⟩ :: (retain keep (table.erase k)).entries :=
  List.filter_cons_of_pos (p := fun entry : Sigma fun _ : κ => ν => keep entry.1 entry.2) kept

theorem entries_ne_nil_iff (table : Table κ ν) :
    table.entries ≠ [] ↔ ∃ k v, table.lookup k = some v := by
  constructor
  · intro present
    obtain ⟨entry, member⟩ := List.exists_mem_of_ne_nil _ present
    exact ⟨entry.1, entry.2, AList.mem_lookup_iff.mpr member⟩
  · rintro ⟨k, v, found⟩ none
    have member := AList.mem_lookup_iff.mp found
    rw [none] at member
    cases member

theorem mem_keys_iff (table : Table κ ν) (k : κ) : k ∈ table.keys ↔ ∃ v, table.lookup k = some v := by
  rw [← AList.mem_keys, ← AList.lookup_isSome, Option.isSome_iff_exists]

end Retain

end HorizonOs.Lib.HashTable
