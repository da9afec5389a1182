import HorizonOs.Glass.Model
import HorizonOs.Lib.Histogram
import Mathlib.Algebra.Order.BigOperators.Group.Finset

/-!
# The timeline

Each entry of the window is counted in one bucket, picked by proportion, while the ends of the
buckets are rounded down. The counters are `u32` and wrap.
-/

namespace HorizonOs.Glass

open HorizonOs.Lib.Histogram
open HorizonOs.Weave (AuditEntry Event GrantInfo)

set_option autoImplicit false

/-! ## What a bucket should count -/

inductive EventKind where
  | grant
  | use
  | deny
  | revoke
  deriving DecidableEq

def EventKind.of : Event → EventKind
  | .grant .. => .grant
  | .use .. => .use
  | .deny .. => .deny
  | .revoke _ => .revoke

def Bucket.counter (slot : Bucket) : EventKind → UInt32
  | .grant => slot.grants
  | .use => slot.uses
  | .deny => slot.denials
  | .revoke => slot.revokes

def Bucket.total (slot : Bucket) : Nat :=
  slot.grants.toNat + slot.uses.toNat + slot.denials.toNat + slot.revokes.toNat

/-- The time is in the bucket, which only as the last has its end. -/
def Bucket.holds (slot : Bucket) (last : Bool) (t : UInt64) : Bool :=
  slot.startUnix ≤ t && (t < slot.endUnix || last && t ≤ slot.endUnix)

/-- The entries of a kind that the window has. -/
def within (entries : List AuditEntry) (window : Window) (kind : EventKind) : List AuditEntry :=
  entries.filter fun e => window.contains e.timeUnix && EventKind.of e.event = kind

def heldBy (entries : List AuditEntry) (window : Window) (slot : Bucket) (last : Bool)
    (kind : EventKind) : Nat :=
  (within entries window kind).countP fun e => slot.holds last e.timeUnix

/-- Every entry of the window is counted once, and in the bucket that has its time. -/
structure ExactTimeline (entries : List AuditEntry) (window : Window) (timeline : List Bucket) :
    Prop where
  counted : ∀ i slot, timeline[i]? = some slot → ∀ kind, (slot.counter kind).toNat =
    heldBy entries window slot (decide (i + 1 = timeline.length)) kind
  total : (timeline.map Bucket.total).sum = entries.countP fun e => window.contains e.timeUnix

/-- The seconds from the start of the window. -/
def Window.offset (window : Window) (t : UInt64) : Nat := (t - window.startUnix).toNat

/-! ## What is counted -/

section Fold

variable (window : Window) (buckets : Nat)

theorem record_timeline (byGrant : List (HorizonOs.Weave.GrantId × Nat)) (draft : Draft)
    (e : AuditEntry) : (draft.record byGrant e).timeline = draft.timeline := by
  rw [Draft.record]
  cases e.event with
  | grant => rfl
  | use grant principal resource rights =>
      dsimp only
      cases grantIndex byGrant grant <;> rfl
  | deny principal resource rights reason =>
      simp only [Draft.deniedRow, Draft.denyChannel]
      split
      · rfl
      · split <;> rfl
  | revoke => rfl

theorem collect_timeline (entries : List AuditEntry) (grants : List GrantInfo) :
    (collect entries grants window buckets).timeline =
      entries.foldl (tally window buckets) (makeBuckets window buckets) := by
  have steps : ∀ (rest : List AuditEntry) (draft : Draft),
      (rest.foldl (Draft.step window buckets (indexGrants grants)) draft).timeline =
        rest.foldl (tally window buckets) draft.timeline := by
    intro rest
    induction rest with
    | nil => exact fun _ => rfl
    | cons e rest ih =>
        intro draft
        rw [List.foldl_cons, List.foldl_cons, ih, Draft.step, record_timeline]
  exact steps entries (seedDraft grants window buckets)

/-- Whether the entry is counted in this bucket. -/
def countsIn (i : Nat) (e : AuditEntry) : Bool :=
  window.contains e.timeUnix && bucketIndex window buckets e.timeUnix = some i

def Bucket.record (i : Nat) (slot : Bucket) (e : AuditEntry) : Bucket :=
  if countsIn window buckets i e then slot.count e.event else slot

theorem get_tally (timeline : List Bucket) (e : AuditEntry) (i : Nat) :
    (tally window buckets timeline e)[i]? =
      (timeline[i]?).map fun slot => slot.record window buckets i e := by
  have other (out : countsIn window buckets i e = false) :
      timeline[i]? = (timeline[i]?).map fun slot => slot.record window buckets i e := by
    simp only [Bucket.record, out, Bool.false_eq_true, if_false, Option.map_id']
  rw [tally]
  by_cases inside : window.contains e.timeUnix = true
  · rw [if_pos inside]
    cases found : bucketIndex window buckets e.timeUnix with
    | none =>
        refine other ?_
        rw [countsIn, found, inside, Bool.true_and]
        exact decide_eq_false (Option.some_ne_none i).symm
    | some b =>
        rw [List.getElem?_modify, Option.map_eq_map]
        by_cases same : b = i
        · have counts : countsIn window buckets i e = true := by
            rw [countsIn, found, inside, Bool.true_and, same]
            exact decide_eq_true rfl
          simp only [same, if_true, Bucket.record, counts]
        · simp only [same, if_false, Option.map_id']
          refine other ?_
          rw [countsIn, found, inside, Bool.true_and]
          exact decide_eq_false fun hit => same (Option.some.inj hit)
  · rw [if_neg inside]
    refine other ?_
    rw [countsIn, Bool.eq_false_iff.mpr inside, Bool.false_and]

theorem get_tallies (entries : List AuditEntry) (timeline : List Bucket) (i : Nat) :
    (entries.foldl (tally window buckets) timeline)[i]? =
      (timeline[i]?).map fun slot => entries.foldl (Bucket.record window buckets i) slot := by
  induction entries generalizing timeline with
  | nil => exact Option.map_id'.symm
  | cons e rest ih =>
      rw [List.foldl_cons, ih, get_tally, Option.map_map]
      rfl

theorem counter_count (slot : Bucket) (event : Event) (kind : EventKind) :
    (slot.count event).counter kind =
      slot.counter kind + if EventKind.of event = kind then 1 else 0 := by
  cases event <;> cases kind <;> simp [Bucket.count, Bucket.counter, EventKind.of]

/-- How many entries of a kind are counted in a bucket. -/
def pickedCount (entries : List AuditEntry) (i : Nat) (kind : EventKind) : Nat :=
  (within entries window kind).countP fun e => bucketIndex window buckets e.timeUnix = some i

theorem picked_count_cons (e : AuditEntry) (rest : List AuditEntry) (i : Nat) (kind : EventKind) :
    pickedCount window buckets (e :: rest) i kind = pickedCount window buckets rest i kind +
      if countsIn window buckets i e = true ∧ EventKind.of e.event = kind then 1 else 0 := by
  rw [pickedCount, pickedCount, within, within, List.countP_filter, List.countP_filter,
    List.countP_cons]
  simp only [countsIn, Bool.and_eq_true, decide_eq_true_eq]
  congr 2
  exact propext (by tauto)

theorem record_counter (slot : Bucket) (i : Nat) (e : AuditEntry) (kind : EventKind) :
    (slot.record window buckets i e).counter kind = slot.counter kind +
      if countsIn window buckets i e = true ∧ EventKind.of e.event = kind then 1 else 0 := by
  rw [Bucket.record]
  by_cases counts : countsIn window buckets i e = true
  · simp only [counts, if_true, true_and, counter_count]
  · simp only [counts, if_false, false_and, Bool.false_eq_true, UInt32.add_zero]

theorem record_ends (slot : Bucket) (i : Nat) (e : AuditEntry) :
    (slot.record window buckets i e).startUnix = slot.startUnix ∧
      (slot.record window buckets i e).endUnix = slot.endUnix := by
  rw [Bucket.record]
  split_ifs
  · cases e.event <;> exact ⟨rfl, rfl⟩
  · exact ⟨rfl, rfl⟩

/-- A bucket counts what is counted in it, and its ends stay. -/
theorem fold_record (entries : List AuditEntry) (slot : Bucket) (i : Nat) :
    ((entries.foldl (Bucket.record window buckets i) slot).startUnix = slot.startUnix ∧
      (entries.foldl (Bucket.record window buckets i) slot).endUnix = slot.endUnix) ∧
    ∀ kind, (entries.foldl (Bucket.record window buckets i) slot).counter kind =
      slot.counter kind + UInt32.ofNat (pickedCount window buckets entries i kind) := by
  induction entries generalizing slot with
  | nil => exact ⟨⟨rfl, rfl⟩, fun kind => (UInt32.add_zero (slot.counter kind)).symm⟩
  | cons e rest ih =>
      obtain ⟨⟨starts, ends⟩, counters⟩ := ih (slot.record window buckets i e)
      have kept := record_ends window buckets slot i e
      refine ⟨⟨starts.trans kept.1, ends.trans kept.2⟩, fun kind => (counters kind).trans ?_⟩
      rw [record_counter, picked_count_cons, UInt32.ofNat_add, UInt32.add_assoc]
      congr 1
      rw [UInt32.add_comm]
      split_ifs <;> rfl

end Fold

/-! ## Where the ends of the buckets are -/

section Ends

variable {window : Window} {t : UInt64}

theorem contains_iff (window : Window) (t : UInt64) : window.contains t = true ↔
    window.startUnix.toNat ≤ t.toNat ∧ t.toNat ≤ window.endUnix.toNat := by
  rw [Window.contains, Bool.and_eq_true, decide_eq_true_eq, decide_eq_true_eq,
    UInt64.le_iff_toNat_le, UInt64.le_iff_toNat_le]

/-- A time in the window is its offset behind the start, and no further than the span. -/
theorem offset_of_contains (inside : window.contains t = true) :
    t.toNat = window.startUnix.toNat + window.offset t ∧
      window.endUnix.toNat = window.startUnix.toNat + window.span.toNat ∧
      window.offset t ≤ window.span.toNat := by
  obtain ⟨low, high⟩ := (contains_iff window t).mp inside
  have ordered : window.startUnix ≤ window.endUnix :=
    UInt64.le_iff_toNat_le.mpr (low.trans high)
  have span : window.span.toNat = window.endUnix.toNat - window.startUnix.toNat := by
    rw [Window.span, if_pos ordered, UInt64.toNat_sub_of_le _ _ ordered]
  have offset : window.offset t = t.toNat - window.startUnix.toNat :=
    UInt64.toNat_sub_of_le _ _ (UInt64.le_iff_toNat_le.mpr low)
  omega

theorem bucket_index_picked {buckets : Nat} (some_ : 0 < buckets)
    (inside : window.contains t = true) :
    bucketIndex window buckets t = some (picked window.span.toNat buckets (window.offset t)) := by
  have more : decide (buckets = 0) = false := decide_eq_false some_.ne'
  rw [bucketIndex, inside, picked]
  simp only [more, Bool.not_true, Bool.or_self, Bool.false_eq_true, if_false]
  by_cases empty : window.span = 0
  · have none : window.span.toNat = 0 := congrArg UInt64.toNat empty
    rw [if_pos empty, if_pos none]
  · have positive : window.span.toNat ≠ 0 := fun none => empty (UInt64.toNat_inj.mp none)
    rw [if_neg empty, if_neg positive]
    rfl

theorem bucket_start {buckets : Nat} (some_ : 0 < buckets) (inside : window.contains t = true)
    {i : Nat} (below : i ≤ buckets) :
    (window.startUnix + scale window.span i buckets).toNat =
      window.startUnix.toNat + edge window.span.toNat buckets i := by
  obtain ⟨_, ends, _⟩ := offset_of_contains inside
  have least : edge window.span.toNat buckets i ≤ window.span.toNat := by
    rw [edge]
    exact Nat.div_le_of_le_mul (Nat.mul_comm window.span.toNat buckets ▸
      Nat.mul_le_mul_left _ below)
  have small := window.endUnix.toNat_lt
  rw [scale, if_neg some_.ne', UInt64.toNat_add, UInt64.toNat_ofNat']
  change (_ + edge _ _ _ % 2 ^ 64) % 2 ^ 64 = _
  rw [Nat.mod_eq_of_lt (by omega), Nat.mod_eq_of_lt (by omega)]

theorem get_make_buckets {window : Window} {buckets i : Nat} {slot : Bucket}
    (made : (makeBuckets window buckets)[i]? = some slot) : i < buckets ∧
      slot.startUnix = window.startUnix + scale window.span i buckets ∧
      slot.endUnix = window.startUnix + scale window.span (i + 1) buckets ∧
      ∀ kind, slot.counter kind = 0 := by
  rw [makeBuckets, List.getElem?_map, Option.map_eq_some_iff] at made
  obtain ⟨j, ranged, rfl⟩ := made
  obtain ⟨below, rfl⟩ := List.getElem?_eq_some_iff.mp ranged
  rw [List.getElem_range]
  refine ⟨by rwa [List.length_range] at below, rfl, rfl, fun kind => ?_⟩
  cases kind <;> rfl

/-- A bucket holds the times that are inside its bin. -/
theorem holds_iff {buckets i : Nat} {slot : Bucket}
    (made : (makeBuckets window buckets)[i]? = some slot) (inside : window.contains t = true) :
    slot.holds (decide (i + 1 = buckets)) t = true ↔
      home window.span.toNat buckets (window.offset t) = i := by
  obtain ⟨below, starts, ends, _⟩ := get_make_buckets made
  have some_ : 0 < buckets := Nat.zero_lt_of_lt below
  obtain ⟨here, finish, least⟩ := offset_of_contains inside
  have start := bucket_start some_ inside below.le
  have stop : (window.startUnix + scale window.span (i + 1) buckets).toNat =
      window.startUnix.toNat + edge window.span.toNat buckets (i + 1) :=
    bucket_start some_ inside below
  rw [← starts] at start
  rw [← ends] at stop
  rw [← inside_iff some_ below, Inside, Bucket.holds, Bool.and_eq_true, Bool.or_eq_true,
    Bool.and_eq_true, decide_eq_true_eq, decide_eq_true_eq, decide_eq_true_eq, decide_eq_true_eq,
    UInt64.le_iff_toNat_le, UInt64.lt_iff_toNat_lt, UInt64.le_iff_toNat_le, start, stop, here]
  refine and_congr (by omega) (or_congr (by omega) (and_iff_left_of_imp fun last => ?_))
  -- the last bucket ends where the window does
  have whole : edge window.span.toNat buckets (i + 1) = window.span.toNat := by
    rw [edge, last, Nat.mul_div_cancel _ some_]
  omega

end Ends

/-! ## The whole timeline -/

section Exact

variable (entries : List AuditEntry) (grants : List GrantInfo) (window : Window) (buckets : Nat)

/-- No time in the window falls on the end of a bucket that was rounded down. -/
def FairTimes : Prop := ∀ e ∈ entries, window.contains e.timeUnix = true →
  Fair window.span.toNat buckets (window.offset e.timeUnix)

/-- No bucket's span has more entries of a kind than its counter can hold. -/
def FewEach : Prop := ∀ i slot, (makeBuckets window buckets)[i]? = some slot → ∀ kind,
  heldBy entries window slot (decide (i + 1 = buckets)) kind < 2 ^ 32

theorem mem_within {e : AuditEntry} {kind : EventKind} : e ∈ within entries window kind ↔
    e ∈ entries ∧ window.contains e.timeUnix = true ∧ EventKind.of e.event = kind := by
  rw [within, List.mem_filter, Bool.and_eq_true, decide_eq_true_eq]

variable {entries window buckets} in
/-- An entry is counted by its picked bin. -/
theorem picked_count_eq (some_ : 0 < buckets) (i : Nat) (kind : EventKind) :
    pickedCount window buckets entries i kind = (within entries window kind).countP
      fun e => picked window.span.toNat buckets (window.offset e.timeUnix) = i := by
  refine List.countP_congr fun e member => ?_
  have inside := ((mem_within entries window).mp member).2.1
  rw [bucket_index_picked some_ inside, decide_eq_true_eq, decide_eq_true_eq, Option.some_inj]

variable {entries window buckets} in
/-- An entry belongs to its home. -/
theorem held_by_eq {i : Nat} {slot : Bucket} (made : (makeBuckets window buckets)[i]? = some slot)
    (kind : EventKind) : heldBy entries window slot (decide (i + 1 = buckets)) kind =
      (within entries window kind).countP
        fun e => home window.span.toNat buckets (window.offset e.timeUnix) = i := by
  refine List.countP_congr fun e member => ?_
  have inside := ((mem_within entries window).mp member).2.1
  rw [holds_iff made inside, decide_eq_true_eq]

def emptyBucket (i : Nat) : Bucket :=
  { startUnix := window.startUnix + scale window.span i buckets
    endUnix := window.startUnix + scale window.span (i + 1) buckets
    grants := 0, uses := 0, denials := 0, revokes := 0 }

theorem get_empty {i : Nat} (below : i < buckets) :
    (makeBuckets window buckets)[i]? = some (emptyBucket window buckets i) := by
  rw [makeBuckets, List.getElem?_map, List.getElem?_range below]
  rfl

/-- The bucket after the whole log. -/
def fullBucket (i : Nat) : Bucket :=
  entries.foldl (Bucket.record window buckets i) (emptyBucket window buckets i)

theorem timeline_eq : (build entries grants window buckets).timeline =
    (List.range buckets).map (fullBucket entries window buckets) := by
  change (collect entries grants window buckets).timeline = _
  refine List.ext_getElem? fun i => ?_
  rw [collect_timeline, get_tallies, makeBuckets, List.getElem?_map, List.getElem?_map,
    Option.map_map]
  cases ranged : (List.range buckets)[i]? with
  | none => rfl
  | some j =>
      obtain ⟨below, rfl⟩ := List.getElem?_eq_some_iff.mp ranged
      rw [List.getElem_range]
      rfl

theorem full_bucket (i : Nat) :
    ((fullBucket entries window buckets i).startUnix = (emptyBucket window buckets i).startUnix ∧
      (fullBucket entries window buckets i).endUnix = (emptyBucket window buckets i).endUnix) ∧
    ∀ kind, (fullBucket entries window buckets i).counter kind =
      UInt32.ofNat (pickedCount window buckets entries i kind) := by
  obtain ⟨ends, counters⟩ := fold_record window buckets entries (emptyBucket window buckets i) i
  refine ⟨ends, fun kind => (counters kind).trans ?_⟩
  have zero : (emptyBucket window buckets i).counter kind = 0 := by cases kind <;> rfl
  rw [zero, UInt32.zero_add]

theorem held_full (i : Nat) (last : Bool) (kind : EventKind) :
    heldBy entries window (fullBucket entries window buckets i) last kind =
      heldBy entries window (emptyBucket window buckets i) last kind := by
  obtain ⟨⟨starts, ends⟩, _⟩ := full_bucket entries window buckets i
  simp only [heldBy, Bucket.holds, starts, ends]

/-! ### Sums over the buckets -/

def pickedTotal (i : Nat) : Nat :=
  pickedCount window buckets entries i .grant + pickedCount window buckets entries i .use +
    pickedCount window buckets entries i .deny + pickedCount window buckets entries i .revoke

theorem full_total (i : Nat) : (fullBucket entries window buckets i).total =
    pickedCount window buckets entries i .grant % 2 ^ 32 +
      pickedCount window buckets entries i .use % 2 ^ 32 +
      pickedCount window buckets entries i .deny % 2 ^ 32 +
      pickedCount window buckets entries i .revoke % 2 ^ 32 := by
  obtain ⟨_, counters⟩ := full_bucket entries window buckets i
  have grants := counters .grant
  have uses := counters .use
  have denials := counters .deny
  have revokes := counters .revoke
  simp only [Bucket.counter] at grants uses denials revokes
  rw [Bucket.total, grants, uses, denials, revokes]
  simp only [UInt32.toNat_ofNat']

theorem sum_totals : ((build entries grants window buckets).timeline.map Bucket.total).sum =
    ∑ i ∈ Finset.range buckets, (fullBucket entries window buckets i).total := by
  rw [timeline_eq, List.map_map]
  rfl

theorem count_kinds : (entries.countP fun e => window.contains e.timeUnix) =
    (within entries window .grant).length + (within entries window .use).length +
      (within entries window .deny).length + (within entries window .revoke).length := by
  simp only [within, ← List.countP_eq_length_filter]
  induction entries with
  | nil => rfl
  | cons e rest ih =>
      simp only [List.countP_cons, ih]
      cases window.contains e.timeUnix <;> cases e.event <;> simp [EventKind.of] <;> omega

variable {entries window buckets} in
theorem sum_picked (some_ : 0 < buckets) :
    (entries.countP fun e => window.contains e.timeUnix) =
      ∑ i ∈ Finset.range buckets, pickedTotal entries window buckets i := by
  have each (kind : EventKind) : (within entries window kind).length =
      ∑ i ∈ Finset.range buckets, pickedCount window buckets entries i kind := by
    simp only [picked_count_eq some_]
    exact (sum_counts _ _ buckets fun e _ => picked_lt some_).symm
  simp only [pickedTotal, Finset.sum_add_distrib, count_kinds, each]

/-! ### Exactness -/

/-- No counter has wrapped where the counters add up to the entries. -/
theorem not_wrapped (some_ : 0 < buckets)
    (total : ((build entries grants window buckets).timeline.map Bucket.total).sum =
      entries.countP fun e => window.contains e.timeUnix) {i : Nat} (below : i < buckets)
    (kind : EventKind) : pickedCount window buckets entries i kind % 2 ^ 32 =
      pickedCount window buckets entries i kind := by
  have le (count : Nat) : count % 2 ^ 32 ≤ count := Nat.mod_le _ _
  have least (i : Nat) : (fullBucket entries window buckets i).total ≤
      pickedTotal entries window buckets i := by
    rw [full_total, pickedTotal]
    exact Nat.add_le_add (Nat.add_le_add (Nat.add_le_add (le _) (le _)) (le _)) (le _)
  rw [sum_totals, sum_picked some_] at total
  have same := (Finset.sum_eq_sum_iff_of_le fun i _ => least i).mp total i
    (Finset.mem_range.mpr below)
  rw [full_total, pickedTotal] at same
  have grants := le (pickedCount window buckets entries i .grant)
  have uses := le (pickedCount window buckets entries i .use)
  have denials := le (pickedCount window buckets entries i .deny)
  have revokes := le (pickedCount window buckets entries i .revoke)
  cases kind <;> omega

/-- The counters say what the buckets hold exactly where this is so of every bucket. -/
theorem counted_iff_each : (∀ i slot, (build entries grants window buckets).timeline[i]? = some slot →
      ∀ kind, (slot.counter kind).toNat = heldBy entries window slot
        (decide (i + 1 = (build entries grants window buckets).timeline.length)) kind) ↔
    ∀ i < buckets, ∀ kind, pickedCount window buckets entries i kind % 2 ^ 32 =
      heldBy entries window (emptyBucket window buckets i) (decide (i + 1 = buckets)) kind := by
  have length : (build entries grants window buckets).timeline.length = buckets := by
    rw [timeline_eq, List.length_map, List.length_range]
  have shown (i : Nat) (kind : EventKind) :
      ((fullBucket entries window buckets i).counter kind).toNat =
        pickedCount window buckets entries i kind % 2 ^ 32 := by
    rw [(full_bucket entries window buckets i).2, UInt32.toNat_ofNat']
  rw [length, timeline_eq]
  constructor
  · intro counted i below kind
    rw [← shown, ← held_full]
    refine counted i _ ?_ kind
    rw [List.getElem?_map, List.getElem?_range below]
    rfl
  · intro each i slot there kind
    rw [List.getElem?_map, Option.map_eq_some_iff] at there
    obtain ⟨j, ranged, rfl⟩ := there
    obtain ⟨below, rfl⟩ := List.getElem?_eq_some_iff.mp ranged
    rw [List.getElem_range, shown, held_full]
    exact each i (by rwa [List.length_range] at below) kind

/-- What is counted in the buckets is what they hold exactly where the times are fair. -/
theorem picked_held_iff (some_ : 0 < buckets) :
    (∀ i < buckets, ∀ kind, pickedCount window buckets entries i kind =
      heldBy entries window (emptyBucket window buckets i) (decide (i + 1 = buckets)) kind) ↔
    FairTimes entries window buckets := by
  have one (kind : EventKind) := counts_agree_iff (within entries window kind)
    (fun e => picked window.span.toNat buckets (window.offset e.timeUnix))
    (fun e => home window.span.toNat buckets (window.offset e.timeUnix))
    fun e _ => picked_le_home some_
  constructor
  · intro same e member inside
    have listed := (mem_within entries window).mpr ⟨member, inside, rfl⟩
    refine (picked_eq_home_iff some_ (offset_of_contains inside).2.2).mp
      ((one (EventKind.of e.event)).mp (fun i => ?_) e listed)
    by_cases below : i < buckets
    · rw [← picked_count_eq some_, ← held_by_eq (get_empty window buckets below)]
      exact same i below _
    · refine List.countP_congr fun other _ => ?_
      have counted : picked window.span.toNat buckets (window.offset other.timeUnix) ≠ i :=
        fun at_ => below (at_ ▸ picked_lt some_)
      have belongs : home window.span.toNat buckets (window.offset other.timeUnix) ≠ i :=
        fun at_ => below (at_ ▸ home_lt some_)
      rw [decide_eq_true_eq, decide_eq_true_eq]
      exact iff_of_false counted belongs
  · intro fair i below kind
    rw [picked_count_eq some_, held_by_eq (get_empty window buckets below)]
    refine (one kind).mpr (fun e listed => ?_) i
    obtain ⟨member, inside, _⟩ := (mem_within entries window).mp listed
    exact (picked_eq_home_iff some_ (offset_of_contains inside).2.2).mpr (fair e member inside)

/-- A log of fewer entries overflows no counter. -/
theorem few_of_short (short : entries.length < 2 ^ 32) : FewEach entries window buckets :=
  fun _ _ _ _ => (List.countP_le_length.trans (List.length_filter_le _ entries)).trans_lt short

end Exact

/-- A revocation at a second of its own. -/
def sampleRevoke (t : UInt64) : AuditEntry where
  id := HorizonOs.Lib.ByteCodec.FixedBytes.ofBytes 32 []
  seq := 0
  timeUnix := t
  event := .revoke (HorizonOs.Lib.ByteCodec.FixedBytes.ofBytes 16 [7])

end HorizonOs.Glass
