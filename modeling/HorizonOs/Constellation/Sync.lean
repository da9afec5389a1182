import HorizonOs.Constellation.Transport
import Mathlib.Data.List.Sort

/-!
# Sync

Push everything the source holds that the destination is missing, then carry
the source's refs over: outright where the destination has none, forward where
its generation is an ancestor of ours, and not at all where histories diverge.
-/

namespace HorizonOs.Constellation

open HorizonOs.Lib.ByteCodec HorizonOs.Lib.Runs HorizonOs.Lib.Programs HorizonOs.Lib.Search
open HorizonOs.Lifestream

set_option autoImplicit false

structure SyncReport where
  sourceObjects : Nat
  destObjects : Nat
  transferred : Nat
  bytes : UInt64
  /-- Refs the destination did not have, set outright. -/
  refsSet : List String
  /-- Refs fast-forwarded: the destination's target was an ancestor of ours. -/
  refsAdvanced : List String
  /-- Refs left untouched because advancing them would drop history. -/
  refsConflicted : List String
  deriving DecidableEq

def SyncReport.movedAnything (report : SyncReport) : Bool :=
  report.transferred > 0 || !report.refsSet.isEmpty || !report.refsAdvanced.isEmpty

/-- Ids in the order of their bytes. -/
def idLe (left right : ObjectId) : Prop := decodeBE left.bytes ≤ decodeBE right.bytes

instance : DecidableRel idLe := fun left right =>
  inferInstanceAs (Decidable (decodeBE left.bytes ≤ decodeBE right.bytes))

/-- What the destination lacks, sorted. -/
def missing (source dest : List ObjectId) : List ObjectId :=
  (source.filter (· ∉ dest)).insertionSort idLe

def transferOne (report : SyncReport) (id : ObjectId) : SyncProgram SyncReport := do
  let record ← askSource (.readRecord id)
  let wrote ← askDestination (.writeRecord id record)
  if wrote then
    pure { report with
      transferred := report.transferred + 1
      bytes := report.bytes + UInt64.ofNat record.length }
  else pure report

def ancestryVisit (_ : List ObjectId) (id : ObjectId) : SyncProgram (List ObjectId) := do
  let parents ← askDestination (.parents id)
  pure (parents.getD [])

/-- Whether `ancestor` is reachable from `descendant` by generation parents. -/
def isAncestor (ancestor descendant : ObjectId) : SyncProgram Bool := do
  let (found, _) ← explore (fun id => id = ancestor) ancestryVisit (idCount + 1) [] [descendant]
  pure found

/-- Carry one ref of the source over. -/
def syncRef (report : SyncReport) (ref : String × ObjectId) : SyncProgram SyncReport := do
  let target ← askDestination (.getRef ref.1)
  match target with
  | none => do
      let _ ← askDestination (.setRef ref.1 ref.2)
      pure { report with refsSet := report.refsSet ++ [ref.1] }
  | some old =>
      if old = ref.2 then pure report
      else do
        let forward ← isAncestor old ref.2
        if forward then do
          let _ ← askDestination (.setRef ref.1 ref.2)
          pure { report with refsAdvanced := report.refsAdvanced ++ [ref.1] }
        else pure { report with refsConflicted := report.refsConflicted ++ [ref.1] }

def syncRefs (report : SyncReport) : SyncProgram SyncReport := do
  let refs ← askSource .refs
  refs.foldlM syncRef report

def startReport (source dest : List ObjectId) : SyncReport :=
  ⟨source.length, dest.length, 0, 0, [], [], []⟩

def sync : SyncProgram SyncReport := do
  let source ← askSource .haveIds
  let dest ← askDestination .haveIds
  let report ← (missing source dest).foldlM transferOne (startReport source dest)
  syncRefs report

/-- A sync between two stores of one identity on one host. -/
def syncStores (ls : Lifestream) : EStateM Error (Device × Device) SyncReport :=
  sync.run (between (localTransport ls) (localTransport ls))

end HorizonOs.Constellation
