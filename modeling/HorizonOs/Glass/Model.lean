import HorizonOs.Lib.Grouping
import HorizonOs.Weave.Audit

/-!
# The Glass view model

The grant table and the audit log folded into channels, one for each thing that a principal can
reach or was refused, and these grouped by principal. Counters are `u32` and wrap.
-/

namespace HorizonOs.Glass

open HorizonOs.Lib.Grouping (groups)
open HorizonOs.Weave (AuditEntry Event GrantId GrantInfo PrincipalId Resource Rights Status)

set_option autoImplicit false

structure Window where
  startUnix : UInt64
  endUnix : UInt64
  deriving DecidableEq

/-- `saturating_sub`. -/
def Window.span (window : Window) : UInt64 :=
  if window.startUnix ≤ window.endUnix then window.endUnix - window.startUnix else 0

def Window.contains (window : Window) (t : UInt64) : Bool :=
  window.startUnix ≤ t && t ≤ window.endUnix

inductive ChannelKind where
  | network
  | data
  | device
  | service
  deriving DecidableEq

def ChannelKind.of : Resource → ChannelKind
  | .net _ _ => .network
  | .file _ => .data
  | .device _ => .device
  | .service _ _ => .service

inductive ChannelStatus where
  | live
  | severed
  | expired
  | blocked
  deriving DecidableEq

def ChannelStatus.from_status : Status → ChannelStatus
  | .active => .live
  | .revoked => .severed
  | .expired => .expired

/-- One thing that a principal can reach; a blocked one has no grant behind it. -/
structure Channel where
  principal : PrincipalId
  resource : Resource
  kind : ChannelKind
  rights : Rights
  grant : Option GrantId
  status : ChannelStatus
  uses : UInt32
  denials : UInt32
  firstUnix : Option UInt64
  lastUnix : Option UInt64
  accessed : List Resource
  lastReason : Option String
  deriving DecidableEq

def Channel.isLive (c : Channel) : Bool := c.status = .live

def Channel.canSever (c : Channel) : Bool := c.grant.isSome && c.status = .live

structure Bucket where
  startUnix : UInt64
  endUnix : UInt64
  grants : UInt32
  uses : UInt32
  denials : UInt32
  revokes : UInt32
  deriving DecidableEq

structure Totals where
  principals : UInt32
  live : UInt32
  network : UInt32
  blocked : UInt32
  severed : UInt32
  deriving DecidableEq

structure PrincipalView where
  principal : PrincipalId
  channels : List Channel
  live : UInt32
  blocked : UInt32
  lastUnix : Option UInt64
  deriving DecidableEq

structure Model where
  window : Window
  principals : List PrincipalView
  timeline : List Bucket
  totals : Totals
  deriving DecidableEq

/-! ## The fold -/

/-- A channel and the displays that `seen` holds for it; the two vectors of the source grow
together. -/
structure Row where
  channel : Channel
  seen : List String

/-- The model as it is built. -/
structure Draft where
  rows : List Row
  /-- The rows of denials without a grant, by principal and resource. -/
  byDeny : List (String × Nat)
  timeline : List Bucket

/-- The channel of a grant, as the grant table has it. -/
def seeded (g : GrantInfo) : Channel where
  principal := g.principal
  resource := g.resource
  kind := ChannelKind.of g.resource
  rights := g.rights
  grant := some g.id
  status := ChannelStatus.from_status g.status
  uses := g.uses
  denials := 0
  firstUnix := some g.grantedUnix
  lastUnix := some g.grantedUnix
  accessed := []
  lastReason := none

def indexGrants (grants : List GrantInfo) : List (GrantId × Nat) :=
  grants.zipIdx.map fun pair => (pair.1.id, pair.2)

def grantIndex (byGrant : List (GrantId × Nat)) (g : GrantId) : Option Nat :=
  (byGrant.find? fun pair => pair.1 = g).map Prod.snd

def Channel.advance (c : Channel) (t : UInt64) : Channel :=
  { c with firstUnix := some (c.firstUnix.elim t fun f => min f t)
           lastUnix := some (c.lastUnix.elim t fun l => max l t) }

def Row.noteAccess (row : Row) (resource : Resource) : Row :=
  let d := resource.display
  if d = row.channel.resource.display then row
  else if d ∈ row.seen then row
  else { channel := { row.channel with accessed := row.channel.accessed ++ [resource] }
         seen := d :: row.seen }

/-- `span as u128 * num as u128 / den as u128`. -/
def scale (span : UInt64) (num den : Nat) : UInt64 :=
  if den = 0 then 0 else UInt64.ofNat (span.toNat * num / den)

def makeBuckets (w : Window) (buckets : Nat) : List Bucket :=
  (List.range buckets).map fun i =>
    { startUnix := w.startUnix + scale w.span i buckets
      endUnix := w.startUnix + scale w.span (i + 1) buckets
      grants := 0, uses := 0, denials := 0, revokes := 0 }

def bucketIndex (w : Window) (buckets : Nat) (t : UInt64) : Option Nat :=
  if buckets = 0 || !w.contains t then none
  else if w.span = 0 then some 0
  else some (min ((t - w.startUnix).toNat * buckets / w.span.toNat) (buckets - 1))

def Bucket.count (slot : Bucket) : Event → Bucket
  | .grant .. => { slot with grants := slot.grants + 1 }
  | .use .. => { slot with uses := slot.uses + 1 }
  | .deny .. => { slot with denials := slot.denials + 1 }
  | .revoke _ => { slot with revokes := slot.revokes + 1 }

def tally (window : Window) (buckets : Nat) (timeline : List Bucket) (e : AuditEntry) :
    List Bucket :=
  if window.contains e.timeUnix then
    match bucketIndex window buckets e.timeUnix with
    | some b => timeline.modify b fun slot => slot.count e.event
    | none => timeline
  else timeline

def Draft.adjust (draft : Draft) (i : Nat) (change : Row → Row) : Draft :=
  { draft with rows := draft.rows.modify i change }

def denyKey (principal : PrincipalId) (resource : Resource) : String :=
  principal ++ "\x00" ++ resource.display

def refused (principal : PrincipalId) (resource : Resource) (rights : Rights) : Channel where
  principal := principal
  resource := resource
  kind := ChannelKind.of resource
  rights := rights
  grant := none
  status := .blocked
  uses := 0
  denials := 0
  firstUnix := none
  lastUnix := none
  accessed := []
  lastReason := none

def Row.widen (rights : Rights) (row : Row) : Row :=
  { row with channel := { row.channel with rights := row.channel.rights.union rights } }

def Draft.denyChannel (draft : Draft) (principal : PrincipalId) (resource : Resource)
    (rights : Rights) : Nat × Draft :=
  let key := denyKey principal resource
  match draft.byDeny.find? fun pair => pair.1 = key with
  | some (_, i) => (i, draft.adjust i (Row.widen rights))
  | none =>
      let idx := draft.rows.length
      (idx, { draft with rows := draft.rows ++ [⟨refused principal resource rights, []⟩]
                         byDeny := draft.byDeny ++ [(key, idx)] })

/-- Whether a denial belongs to a grant's row: the grant covers what was refused. -/
def Row.folds (principal : PrincipalId) (resource : Resource) (row : Row) : Bool :=
  row.channel.grant.isSome && row.channel.principal = principal &&
    row.channel.resource.covers resource

def Draft.deniedRow (draft : Draft) (principal : PrincipalId) (resource : Resource)
    (rights : Rights) : Nat × Draft :=
  match draft.rows.findIdx? (Row.folds principal resource) with
  | some i => (i, draft)
  | none => draft.denyChannel principal resource rights

def Row.deny (reason : String) (t : UInt64) (row : Row) : Row :=
  { row with channel := { row.channel with denials := row.channel.denials + 1
                                           lastReason := some reason }.advance t }

def Draft.record (byGrant : List (GrantId × Nat)) (draft : Draft) (e : AuditEntry) : Draft :=
  match e.event with
  | .grant .. => draft
  | .use grant _ resource _ =>
      match grantIndex byGrant grant with
      | some i => draft.adjust i fun row =>
          Row.noteAccess { row with channel := row.channel.advance e.timeUnix } resource
      | none => draft
  | .deny principal resource rights reason =>
      let (i, draft) := draft.deniedRow principal resource rights
      draft.adjust i (Row.deny reason e.timeUnix)
  | .revoke _ => draft

def Draft.step (window : Window) (buckets : Nat) (byGrant : List (GrantId × Nat)) (draft : Draft)
    (e : AuditEntry) : Draft :=
  { draft with timeline := tally window buckets draft.timeline e }.record byGrant e

def seedDraft (grants : List GrantInfo) (window : Window) (buckets : Nat) : Draft where
  rows := grants.map fun g => ⟨seeded g, []⟩
  byDeny := []
  timeline := makeBuckets window buckets

/-- The draft that the whole log leaves. -/
def collect (entries : List AuditEntry) (grants : List GrantInfo) (window : Window)
    (buckets : Nat) : Draft :=
  entries.foldl (Draft.step window buckets (indexGrants grants)) (seedDraft grants window buckets)

/-! ## The views -/

/-- Current authority always, dead history where it falls in the window. -/
def Channel.isKept (window : Window) (c : Channel) : Bool :=
  c.isLive || c.lastUnix.any window.contains

def Channel.sorted (c : Channel) : Channel :=
  { c with accessed := c.accessed.mergeSort fun a b => a.display ≤ b.display }

def Draft.kept (draft : Draft) (window : Window) : List Channel :=
  ((draft.rows.map Row.channel).filter (Channel.isKept window)).map Channel.sorted

/-- Live first, then most recent, then a stable resource order. -/
def Channel.order (a b : Channel) : Ordering :=
  (compare b.isLive a.isLive).then
    ((compare b.lastUnix a.lastUnix).then (compare a.resource.display b.resource.display))

def viewOf (principal : PrincipalId) (channels : List Channel) : PrincipalView where
  principal := principal
  channels := channels.mergeSort fun a b => (a.order b).isLE
  live := UInt32.ofNat (channels.countP Channel.isLive)
  blocked := UInt32.ofNat (channels.countP fun c => c.status = .blocked)
  lastUnix := (channels.filterMap Channel.lastUnix).max?

/-- Busiest principal first, ties broken by name. -/
def PrincipalView.order (a b : PrincipalView) : Ordering :=
  (compare b.lastUnix a.lastUnix).then (compare a.principal b.principal)

def group (channels : List Channel) : List PrincipalView :=
  ((groups Channel.principal channels).map fun pair => viewOf pair.1 pair.2).mergeSort
    fun a b => (a.order b).isLE

def Totals.add (t : Totals) (c : Channel) : Totals :=
  let t := if c.isLive then
      { t with live := t.live + 1
               network := if c.kind = .network then t.network + 1 else t.network }
    else t
  match c.status with
  | .blocked => { t with blocked := t.blocked + 1 }
  | .severed => { t with severed := t.severed + 1 }
  | _ => t

def totals (views : List PrincipalView) : Totals :=
  (views.flatMap PrincipalView.channels).foldl Totals.add
    { principals := UInt32.ofNat views.length, live := 0, network := 0, blocked := 0, severed := 0 }

def build (entries : List AuditEntry) (grants : List GrantInfo) (window : Window)
    (buckets : Nat) : Model :=
  let draft := collect entries grants window buckets
  let principals := group (draft.kept window)
  { window, principals, timeline := draft.timeline, totals := totals principals }

end HorizonOs.Glass
