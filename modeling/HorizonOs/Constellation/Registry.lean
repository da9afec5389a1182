import HorizonOs.Lib.ByteCodec
import HorizonOs.Lib.HashTable
import HorizonOs.Lib.LastWrite
import Mathlib.Data.List.Lex
import Mathlib.Data.List.Sort
import Mathlib.Order.Basic

/-!
# The rendezvous registry

Who is reachable where: under each fingerprint the addresses that were registered, each with the
instant its lease ends. Expired leases are dropped when the entry is touched. Instants are
nanoseconds of a clock that never runs back.
-/

namespace HorizonOs.Constellation

open HorizonOs.Lib.ByteCodec HorizonOs.Lib.HashTable HorizonOs.Lib.Runs
  HorizonOs.Lib.LastWrite

set_option autoImplicit false

/-! ## Addresses -/

inductive SocketAddr where
  | v4 (ip : FixedBytes 4) (port : UInt16)
  | v6 (ip : FixedBytes 16) (port : UInt16) (flowinfo scopeId : UInt32)
  deriving DecidableEq

/-- What addresses are compared by: the family, then the fields in order. -/
def SocketAddr.key : SocketAddr → List Nat
  | .v4 ip port => [4, decodeBE ip.bytes, port.toNat]
  | .v6 ip port flowinfo scopeId =>
      [6, decodeBE ip.bytes, port.toNat, flowinfo.toNat, scopeId.toNat]

theorem fixed_bytes_of_number {width : Nat} {left right : FixedBytes width}
    (same : decodeBE left.bytes = decodeBE right.bytes) : left = right :=
  FixedBytes.ext (decode_be_injective _ _ (left.size.trans right.size.symm) same)

theorem key_injective : Function.Injective SocketAddr.key := by
  intro left right same
  cases left with
  | v4 ip port =>
      cases right with
      | v4 ip' port' =>
          simp only [SocketAddr.key, List.cons.injEq, and_true, true_and] at same
          rw [fixed_bytes_of_number same.1, UInt16.toNat_inj.mp same.2]
      | v6 ip' port' flowinfo scopeId => cases (List.cons.inj same).1
  | v6 ip port flowinfo scopeId =>
      cases right with
      | v4 ip' port' => cases (List.cons.inj same).1
      | v6 ip' port' flowinfo' scopeId' =>
          simp only [SocketAddr.key, List.cons.injEq, and_true, true_and] at same
          rw [fixed_bytes_of_number same.1, UInt16.toNat_inj.mp same.2.1,
            UInt32.toNat_inj.mp same.2.2.1, UInt32.toNat_inj.mp same.2.2.2]

instance socketAddrOrder : LinearOrder SocketAddr := LinearOrder.lift' SocketAddr.key key_injective

/-! ## The registry -/

/-- How long a registration lives without a refresh: 90 seconds. -/
def lease : Nat := 90 * 1000000000

abbrev Leases := Table SocketAddr Nat

/-- Peers that wait to be punched are left out. -/
structure Registry where
  byFp : Table String Leases

def Registry.default : Registry := ⟨∅⟩

/-- `exp > now`. -/
def isLive (now : Nat) (_ : SocketAddr) (expiry : Nat) : Bool := now < expiry

def Registry.register (reg : Registry) (fp : String) (addr : SocketAddr) (now : Nat) : Registry where
  byFp := reg.byFp.insert fp
    (retain (isLive now) (((reg.byFp.lookup fp).getD ∅).insert addr (now + lease)))

/-- Put back what is left under a fingerprint, unless it is nothing. -/
def Registry.keep (reg : Registry) (fp : String) (bucket : Leases) : Registry where
  byFp := if bucket.entries = [] then reg.byFp.erase fp else reg.byFp.insert fp bucket

def Registry.unregister (reg : Registry) (fp : String) (addr : SocketAddr) : Registry :=
  match reg.byFp.lookup fp with
  | none => reg
  | some bucket => reg.keep fp (bucket.erase addr)

/-- The live addresses, sorted; expired leases are dropped in passing. -/
def Registry.lookup (reg : Registry) (fp : String) (now : Nat) : List SocketAddr × Registry :=
  match reg.byFp.lookup fp with
  | none => ([], reg)
  | some bucket =>
      let bucket := retain (isLive now) bucket
      (bucket.keys.mergeSort (· ≤ ·), reg.keep fp bucket)

/-! ## Its calls -/

inductive RegistryCall where
  | register (fp : String) (addr : SocketAddr) (now : Nat)
  | unregister (fp : String) (addr : SocketAddr)
  | lookup (fp : String) (now : Nat)

def Registry.step (reg : Registry) : RegistryCall → Registry
  | .register fp addr now => reg.register fp addr now
  | .unregister fp addr => reg.unregister fp addr
  | .lookup fp now => (reg.lookup fp now).2

def RegistryCall.time : RegistryCall → Option Nat
  | .register _ _ now => some now
  | .unregister _ _ => none
  | .lookup _ now => some now

/-- The call registers or withdraws this address under this fingerprint. -/
def RegistryCall.Concerns (fp : String) (addr : SocketAddr) : RegistryCall → Prop
  | .register other at_ _ => fp = other ∧ addr = at_
  | .unregister other at_ => fp = other ∧ addr = at_
  | .lookup _ _ => False

/-! ## What is in an entry -/

/-- When the lease of an address ends. -/
def Registry.find (reg : Registry) (fp : String) (addr : SocketAddr) : Option Nat :=
  (reg.byFp.lookup fp).bind fun bucket => bucket.lookup addr

section Laws

variable (reg : Registry) (fp : String)

theorem find_keep_same (bucket : Leases) (addr : SocketAddr) :
    (reg.keep fp bucket).find fp addr = bucket.lookup addr := by
  rw [Registry.find, Registry.keep]
  by_cases empty : bucket.entries = []
  · rw [if_pos empty, AList.lookup_erase, Option.bind_none]
    have none : bucket = ∅ := AList.ext empty
    rw [none, AList.lookup_empty]
  · rw [if_neg empty, AList.lookup_insert, Option.bind_some]

theorem find_keep_other (bucket : Leases) (addr : SocketAddr) {other : String} (apart : other ≠ fp) :
    (reg.keep fp bucket).find other addr = reg.find other addr := by
  rw [Registry.find, Registry.keep, Registry.find]
  by_cases empty : bucket.entries = []
  · rw [if_pos empty, AList.lookup_erase_ne apart]
  · rw [if_neg empty, AList.lookup_insert_ne apart]

theorem find_register_iff (addr : SocketAddr) (now : Nat) (other : String) (where_ : SocketAddr)
    (expiry : Nat) : (reg.register fp addr now).find other where_ = some expiry ↔
      if other = fp ∧ where_ = addr then now + lease = expiry
      else reg.find other where_ = some expiry ∧ (other = fp → now < expiry) := by
  have lasts : now < now + lease := Nat.lt_add_of_pos_right (by decide)
  rw [Registry.find, Registry.register]
  by_cases same : other = fp
  · subst same
    rw [AList.lookup_insert, Option.bind_some, lookup_retain_iff]
    by_cases here : where_ = addr
    · rw [here, AList.lookup_insert, if_pos ⟨rfl, rfl⟩, Option.some_inj, isLive, decide_eq_true_eq]
      constructor
      · exact fun both => both.1
      · rintro rfl
        exact ⟨rfl, lasts⟩
    · have before : AList.lookup where_ ((reg.byFp.lookup other).getD ∅) =
          reg.find other where_ := by
        rw [Registry.find]
        cases reg.byFp.lookup other <;> rfl
      rw [AList.lookup_insert_ne here, before, if_neg (fun both => here both.2), isLive,
        decide_eq_true_eq]
      simp only [forall_const]
  · rw [AList.lookup_insert_ne same, ← Registry.find, if_neg (fun both => same both.1)]
    exact (and_iff_left fun named => absurd named same).symm

theorem find_unregister_iff (addr : SocketAddr) (other : String) (where_ : SocketAddr)
    (expiry : Nat) : (reg.unregister fp addr).find other where_ = some expiry ↔
      if other = fp ∧ where_ = addr then False else reg.find other where_ = some expiry := by
  rw [Registry.unregister]
  cases found : reg.byFp.lookup fp with
  | none =>
      by_cases this : other = fp ∧ where_ = addr
      · rw [if_pos this, Registry.find, this.1, found, Option.bind_none]
        exact iff_of_false (Option.some_ne_none _).symm not_false
      · rw [if_neg this]
  | some bucket =>
      by_cases same : other = fp
      · subst same
        rw [find_keep_same]
        by_cases here : where_ = addr
        · rw [here, AList.lookup_erase, if_pos ⟨rfl, rfl⟩]
          exact iff_of_false (Option.some_ne_none _).symm not_false
        · rw [AList.lookup_erase_ne here, if_neg (fun both => here both.2), Registry.find, found,
            Option.bind_some]
      · rw [find_keep_other reg fp _ _ same, if_neg (fun both => same both.1)]

theorem find_lookup_iff (now : Nat) (other : String) (where_ : SocketAddr) (expiry : Nat) :
    (reg.lookup fp now).2.find other where_ = some expiry ↔
      reg.find other where_ = some expiry ∧ (other = fp → now < expiry) := by
  rw [Registry.lookup]
  cases found : reg.byFp.lookup fp with
  | none =>
      refine (and_iff_left_of_imp fun there same => ?_).symm
      rw [Registry.find, same, found] at there
      cases there
  | some bucket =>
      by_cases same : other = fp
      · subst same
        rw [find_keep_same, lookup_retain_iff, isLive, decide_eq_true_eq, Registry.find, found,
          Option.bind_some]
        simp only [forall_const]
      · rw [find_keep_other reg fp _ _ same]
        exact (and_iff_left fun named => absurd named same).symm

/-- What a lookup returns is what is left of the entry. -/
theorem mem_lookup_iff (now : Nat) (addr : SocketAddr) :
    addr ∈ (reg.lookup fp now).1 ↔ ∃ expiry, reg.find fp addr = some expiry ∧ now < expiry := by
  rw [Registry.lookup, Registry.find]
  cases found : reg.byFp.lookup fp with
  | none =>
      rw [Option.bind_none]
      refine iff_of_false List.not_mem_nil ?_
      rintro ⟨expiry, there, _⟩
      cases there
  | some bucket =>
      rw [(List.mergeSort_perm _ _).mem_iff, mem_keys_iff]
      simp only [lookup_retain_iff, isLive, decide_eq_true_eq, Option.bind_some]

theorem sorted_lookup (now : Nat) : ((reg.lookup fp now).1).Pairwise (· < ·) := by
  rw [Registry.lookup]
  cases reg.byFp.lookup fp with
  | none => exact List.Pairwise.nil
  | some bucket =>
      have distinct := (List.mergeSort_perm (retain (isLive now) bucket).keys (· ≤ ·)).nodup_iff.mpr
        (AList.keys_nodup _)
      have ordered := List.pairwise_mergeSort' (· ≤ ·) (retain (isLive now) bucket).keys
      refine (ordered.and distinct).imp ?_
      rintro left right ⟨le, ne⟩
      exact lt_of_le_of_ne le ne

/-- No entry is left empty, or with a lease that has ended. -/
theorem lookup_leaves (now : Nat) (bucket : Leases)
    (left_ : (reg.lookup fp now).2.byFp.lookup fp = some bucket) :
    bucket.entries ≠ [] ∧ ∀ addr expiry, bucket.lookup addr = some expiry → now < expiry := by
  rw [Registry.lookup] at left_
  cases found : reg.byFp.lookup fp with
  | none =>
      simp only [found] at left_
      cases left_
  | some before =>
      simp only [found, Registry.keep] at left_
      by_cases empty : (retain (isLive now) before).entries = []
      · rw [if_pos empty, AList.lookup_erase] at left_
        cases left_
      · rw [if_neg empty, AList.lookup_insert] at left_
        cases left_
        refine ⟨empty, fun addr expiry there => ?_⟩
        exact of_decide_eq_true ((lookup_retain_iff _ _ _ _).mp there).2

end Laws

/-! ## Leases without forgetting -/

/-- What a call makes of the lease of an address: until when it lasts, or that it is withdrawn. -/
def RegistryCall.renew (fp : String) (addr : SocketAddr) : RegistryCall → Option (Option Nat)
  | .register other at_ now => if fp = other ∧ addr = at_ then some (some (now + lease)) else none
  | .unregister other at_ => if fp = other ∧ addr = at_ then some none else none
  | .lookup _ _ => none

/-- When the lease of an address ends, or ended, unless it was withdrawn. -/
def leaseOf (fp : String) (addr : SocketAddr) (calls : List RegistryCall) : Option Nat :=
  lastWrite (RegistryCall.renew fp addr) calls

section Exact

variable {fp : String} {addr : SocketAddr}

/-- A step does to the leases that are still running what the call says. -/
theorem find_step_iff (reg : Registry) (call : RegistryCall) {now expiry : Nat}
    (past : ∀ t, call.time = some t → t ≤ now) (running : now < expiry) (old : Option Nat)
    (same : reg.find fp addr = some expiry ↔ old = some expiry) :
    (reg.step call).find fp addr = some expiry ↔
      overwrite (RegistryCall.renew fp addr) old call = some expiry := by
  cases call with
  | register other at_ t =>
      have before : t < expiry := Nat.lt_of_le_of_lt (past t rfl) running
      rw [Registry.step, overwrite, RegistryCall.renew, find_register_iff]
      by_cases this : fp = other ∧ addr = at_
      · rw [if_pos this, if_pos this, Option.getD_some, Option.some_inj]
      · rw [if_neg this, if_neg this, Option.getD_none, same]
        exact and_iff_left fun _ => before
  | unregister other at_ =>
      rw [Registry.step, overwrite, RegistryCall.renew, find_unregister_iff]
      by_cases this : fp = other ∧ addr = at_
      · rw [if_pos this, if_pos this, Option.getD_some]
        exact iff_of_false not_false (Option.some_ne_none _).symm
      · rwa [if_neg this, if_neg this, Option.getD_none]
  | lookup other t =>
      have before : t < expiry := Nat.lt_of_le_of_lt (past t rfl) running
      rw [Registry.step, overwrite, RegistryCall.renew, find_lookup_iff, Option.getD_none, same]
      exact and_iff_left fun _ => before

theorem find_run_iff (calls : List RegistryCall) {now expiry : Nat}
    (past : ∀ call ∈ calls, ∀ t, call.time = some t → t ≤ now) (running : now < expiry) :
    (run Registry.step Registry.default calls).find fp addr = some expiry ↔
      leaseOf fp addr calls = some expiry :=
  run_agrees (RegistryCall.renew fp addr)
    (fun reg old => reg.find fp addr = some expiry ↔ old = some expiry) calls
    (fun call member reg old => find_step_iff reg call (past call member) running old)
    Registry.default none Iff.rfl

theorem renew_none_iff (call : RegistryCall) :
    call.renew fp addr = none ↔ ¬ call.Concerns fp addr := by
  cases call with
  | register other at_ now =>
      rw [RegistryCall.renew, RegistryCall.Concerns]
      split_ifs with this
      · exact iff_of_false not_false (not_not_intro this)
      · exact iff_of_true rfl this
  | unregister other at_ =>
      rw [RegistryCall.renew, RegistryCall.Concerns]
      split_ifs with this
      · exact iff_of_false not_false (not_not_intro this)
      · exact iff_of_true rfl this
  | lookup other now => exact iff_of_true rfl not_false

theorem renew_some {call : RegistryCall} {expiry : Nat}
    (renewed : call.renew fp addr = some (some expiry)) :
    ∃ t, call = .register fp addr t ∧ t + lease = expiry := by
  cases call with
  | register other at_ now =>
      rw [RegistryCall.renew] at renewed
      split_ifs at renewed with this
      · obtain ⟨rfl, rfl⟩ := this
        exact ⟨now, rfl, Option.some.inj (Option.some.inj renewed)⟩
  | unregister other at_ =>
      rw [RegistryCall.renew] at renewed
      split_ifs at renewed
      cases renewed
  | lookup other now => cases renewed

/-- A lease comes from the last call about its address, which registers it. -/
theorem lease_of_iff (calls : List RegistryCall) (expiry : Nat) :
    leaseOf fp addr calls = some expiry ↔ ∃ before t after,
      calls = before ++ .register fp addr t :: after ∧
        (∀ call ∈ after, ¬ call.Concerns fp addr) ∧ t + lease = expiry := by
  rw [leaseOf, last_write_iff]
  simp only [renew_none_iff]
  constructor
  · rintro ⟨before, call, after, split, renewed, others⟩
    obtain ⟨t, rfl, ends⟩ := renew_some renewed
    exact ⟨before, t, after, split, others, ends⟩
  · rintro ⟨before, t, after, split, others, rfl⟩
    exact ⟨before, .register fp addr t, after, split, if_pos ⟨rfl, rfl⟩, others⟩

/-- After any calls, a lookup finds the addresses whose last registration is younger than the
lease and was not withdrawn, in order and once each, and leaves nothing that has ended. -/
theorem lookup_exact (calls : List RegistryCall) (fp : String) (now : Nat)
    (past : ∀ call ∈ calls, ∀ t, call.time = some t → t ≤ now) :
    let found := (run Registry.step Registry.default calls).lookup fp now
    found.1.Pairwise (· < ·) ∧
      (∀ addr, addr ∈ found.1 ↔ ∃ before t after,
        calls = before ++ .register fp addr t :: after ∧
          (∀ call ∈ after, ¬ call.Concerns fp addr) ∧ now < t + lease) ∧
      ∀ bucket, found.2.byFp.lookup fp = some bucket →
        bucket.entries ≠ [] ∧ ∀ addr expiry, bucket.lookup addr = some expiry → now < expiry := by
  refine ⟨sorted_lookup _ fp now, fun addr => ?_, lookup_leaves _ fp now⟩
  rw [mem_lookup_iff]
  constructor
  · rintro ⟨expiry, there, running⟩
    obtain ⟨before, t, after, split, untouched, rfl⟩ :=
      (lease_of_iff calls expiry).mp ((find_run_iff calls past running).mp there)
    exact ⟨before, t, after, split, untouched, running⟩
  · rintro ⟨before, t, after, split, untouched, running⟩
    refine ⟨t + lease, (find_run_iff calls past running).mpr ?_, running⟩
    exact (lease_of_iff calls (t + lease)).mpr ⟨before, t, after, split, untouched, rfl⟩

end Exact

/-- One registration that is refreshed, one that is withdrawn and one that is not renewed. -/
def sampleCalls : List RegistryCall :=
  let addr (port : UInt16) : SocketAddr := .v4 ⟨[203, 0, 113, 7], rfl⟩ port
  [.register "ab12" (addr 1) 0, .register "ab12" (addr 2) 0, .register "ab12" (addr 3) 5,
    .register "ab12" (addr 1) 7, .unregister "ab12" (addr 3), .lookup "ab12" 9]

theorem sample_lookup_exact :
    let found := (run Registry.step Registry.default sampleCalls).lookup "ab12" lease
    found.1.Pairwise (· < ·) ∧
      (∀ addr, addr ∈ found.1 ↔ ∃ before t after,
        sampleCalls = before ++ .register "ab12" addr t :: after ∧
          (∀ call ∈ after, ¬ call.Concerns "ab12" addr) ∧ lease < t + lease) ∧
      ∀ bucket, found.2.byFp.lookup "ab12" = some bucket →
        bucket.entries ≠ [] ∧ ∀ addr expiry, bucket.lookup addr = some expiry → lease < expiry :=
  lookup_exact sampleCalls "ab12" lease (by simp [sampleCalls, RegistryCall.time, lease])

end HorizonOs.Constellation
