import HorizonOs.Lib.Buffer

/-!
# Operations that can leave their range

Unsigned arithmetic on words of a width, and accesses to a buffer, as a build with
overflow checks performs them: out of range they end in a fault, and in range they
are the operations on natural numbers and lists.
-/

namespace HorizonOs.Lib.Machine

open HorizonOs.Lib.Buffer

set_option autoImplicit false

section Operations

variable {ε : Type} (fault : ε)

def checkedAdd (width x y : Nat) : Except ε Nat :=
  if x + y < 2 ^ width then .ok (x + y) else .error fault

def checkedSub (x y : Nat) : Except ε Nat :=
  if y ≤ x then .ok (x - y) else .error fault

def checkedMul (width x y : Nat) : Except ε Nat :=
  if x * y < 2 ^ width then .ok (x * y) else .error fault

variable {α : Type}

/-- Copy items into a buffer from an offset on. -/
def checkedPut (buffer : List α) (offset : Nat) (items : List α) : Except ε (List α) :=
  if offset + items.length ≤ buffer.length then .ok (put buffer offset items) else .error fault

def checkedSet (buffer : List α) (i : Nat) (item : α) : Except ε (List α) :=
  if i < buffer.length then .ok (buffer.set i item) else .error fault

/-- The items from one offset up to another. -/
def checkedSlice (buffer : List α) (start stop : Nat) : Except ε (List α) :=
  if start ≤ stop ∧ stop ≤ buffer.length then .ok (slice buffer start (stop - start))
  else .error fault

def checkedHead : List α → Except ε α
  | [] => .error fault
  | item :: _ => .ok item

end Operations

/-! ## In range -/

section InRange

variable {ε α : Type} {fault : ε}

theorem checked_add_ok {width x y : Nat} (range : x + y < 2 ^ width) :
    checkedAdd fault width x y = .ok (x + y) := if_pos range

theorem checked_sub_ok {x y : Nat} (range : y ≤ x) : checkedSub fault x y = .ok (x - y) :=
  if_pos range

theorem checked_sub_fault {x y : Nat} (low : x < y) : checkedSub fault x y = .error fault :=
  if_neg (Nat.not_le.mpr low)

theorem checked_mul_ok {width x y : Nat} (range : x * y < 2 ^ width) :
    checkedMul fault width x y = .ok (x * y) := if_pos range

theorem checked_put_ok {buffer items : List α} {offset : Nat}
    (inside : offset + items.length ≤ buffer.length) :
    checkedPut fault buffer offset items = .ok (put buffer offset items) := if_pos inside

theorem checked_set_ok {buffer : List α} {i : Nat} {item : α} (inside : i < buffer.length) :
    checkedSet fault buffer i item = .ok (buffer.set i item) := if_pos inside

theorem checked_slice_ok {buffer : List α} {start stop : Nat} (order : start ≤ stop)
    (inside : stop ≤ buffer.length) :
    checkedSlice fault buffer start stop = .ok (slice buffer start (stop - start)) :=
  if_pos ⟨order, inside⟩

end InRange

/-! ## Items one after the other -/

theorem map_m_ok {ε α β : Type} {action : α → Except ε β} {value : α → β} (items : List α)
    (each : ∀ item ∈ items, action item = .ok (value item)) :
    items.mapM action = .ok (items.map value) := by
  induction items with
  | nil => rfl
  | cons item rest ih =>
      rw [List.mapM_cons, each item List.mem_cons_self,
        ih fun other member => each other (List.mem_cons_of_mem _ member)]
      rfl

/-! ## Refusals beside faults -/

/-- A result that may refuse, among those that may fault as well. -/
def refusing {ε φ α : Type} (refused : ε → φ) : Except ε α → Except φ α
  | .ok value => .ok value
  | .error error => .error (refused error)

theorem refusing_bind {ε φ α β : Type} (refused : ε → φ) (action : Except ε α)
    (next : α → Except ε β) : refusing refused (action >>= next) =
      refusing refused action >>= fun value => refusing refused (next value) := by
  cases action <;> rfl

end HorizonOs.Lib.Machine
