import HorizonOs.Constellation.Interruption
import HorizonOs.Lifestream.Recovery

/-!
# The store's commands

`horizon lifestream`: a snapshot goes on from the head there is, a log follows first
parents from it, a restore takes a generation by its name, and a collection keeps what
the refs lead to.
-/

namespace HorizonOs.Lifestream

open HorizonOs.Lib.ByteCodec

set_option autoImplicit false

/-- `Lifestream::history`, newest first, in so many steps at most. -/
protected def history (ls : Lifestream) (device : Device) :
    Nat → ObjectId → Option (Except Error (List (ObjectId × Generation)))
  | 0, _ => none
  | steps + 1, id =>
      match ls.get device id with
      | .error error => some (.error error)
      | .ok (.generation g) =>
          match g.parents with
          | [] => some (.ok [(id, g)])
          | parent :: _ =>
              (ls.history device steps parent).map (Except.map (List.cons (id, g)))
      | .ok _ => some (.error (.corrupt "expected generation"))

end HorizonOs.Lifestream

namespace HorizonOs.Cli

open HorizonOs.Lib.ByteCodec HorizonOs.Lib.Text HorizonOs.Lib.Runs
open HorizonOs.Lifestream

set_option autoImplicit false

/-- A command ends on an error of the store, or on one of its own. -/
inductive CliError where
  | store (error : Lifestream.Error)
  | other (message : String)
  deriving DecidableEq

/-- `LsOp::Snapshot`. -/
def snapshot (ls : Lifestream) (dir : HostTree) (label : String) (timeUnix : UInt64) :
    StoreM ObjectId := do
  let device ← theDevice
  let head ← Lifestream.liftExcept (device.getRef headRef)
  let tree ← ls.snapshotDir dir
  ls.commit timeUnix tree head.toList label

/-- `LsOp::Log`. -/
def log (ls : Lifestream) (device : Device) (steps : Nat) :
    Option (Except Lifestream.Error (List (ObjectId × Generation))) :=
  match device.getRef headRef with
  | .error error => some (.error error)
  | .ok none => some (.ok [])
  | .ok (some head) => ls.history device steps head

/-- `LsOp::Gc`. -/
def collect (ls : Lifestream) : StoreM Nat := do
  let device ← theDevice
  let refs ← Lifestream.liftExcept device.readRefs
  Lifestream.gc ls (refs.map Prod.snd)

def namesHead (name : String) : Bool := name.toList.map Char.toLower = "head".toList

def resolve (device : Device) (name : String) : Except CliError ObjectId :=
  if namesHead name then
    match device.getRef headRef with
    | .error error => .error (.store error)
    | .ok none => .error (.other "no HEAD yet")
    | .ok (some head) => .ok head
  else
    match ObjectId.fromHex name with
    | none => .error (.other s!"bad id: {name}")
    | some id => .ok id

/-- What `LsOp::Restore` does once it has found the generation. -/
def restoreRoot (ls : Lifestream) (device : Device) (defaults : Defaults) (depth : Nat)
    (id : ObjectId) (g : Generation) (dest : HostPath) : EStateM CliError HostFs ObjectId :=
  fun fs =>
    match ls.restoreTree device defaults depth g.root dest fs with
    | .ok () after => .ok id after
    | .error error after => .error (.store error) after

/-- `LsOp::Restore`. -/
def restore (ls : Lifestream) (device : Device) (defaults : Defaults) (depth : Nat)
    (generation : String) (dest : HostPath) : EStateM CliError HostFs ObjectId := fun fs =>
  match resolve device generation with
  | .error error => .error error fs
  | .ok id =>
      match ls.get device id with
      | .error error => .error (.store error) fs
      | .ok (.generation g) => restoreRoot ls device defaults depth id g dest fs
      | .ok _ => .error (.other s!"{generation} is not a generation") fs

/-! ## Names of generations -/

theorem resolve_hex (device : Device) (id : ObjectId) : resolve device id.toHex = .ok id := by
  have long : id.toHex.toList.length = 64 := by
    rw [ObjectId.toHex, encodeHex, String.toList_ofList, encode_hex_length, id.size]
  have other : namesHead id.toHex = false := by
    rw [namesHead, decide_eq_false_iff_not]
    intro same
    have short := congrArg List.length same
    rw [List.length_map, long] at short
    exact absurd short (by decide)
  simp only [resolve, other, from_hex_to_hex, Bool.false_eq_true, if_false]

/-- A generation that is whole restores by its id as its tree. -/
theorem restore_hex {ls : Lifestream} {device : Device} {id : ObjectId} {g : Generation}
    (got : ls.get device id = .ok (.generation g)) {defaults : Defaults} {depth : Nat}
    {dest : HostPath} {fs after : HostFs}
    (restored : ls.restoreTree device defaults depth g.root dest fs = .ok () after) :
    restore ls device defaults depth id.toHex dest fs = .ok id after := by
  simp only [restore, resolve_hex, got, restoreRoot, restored]

end HorizonOs.Cli
