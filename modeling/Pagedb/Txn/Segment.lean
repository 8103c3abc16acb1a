/-
  Pagedb.Txn.Segment — segment files and what a commit does to them
  (`txn/db/segment.rs`).

  A commit turns the segment calls of its transaction into an ordered list of
  promotions and tombstones, drains part of the deferred queue and applies the
  list.  Files are keyed by segment id.  VFS calls succeed, as no I/O error is in
  scope here.
-/
import Pagedb.Basic
import Pagedb.Lib.Run

namespace Pagedb

/-- A 16-byte segment id. -/
abbrev SegmentId := Nat

/-- A 16-byte realm id. -/
abbrev RealmId := Nat

/-- The longest segment name, `MAX_SEGMENT_NAME_LEN`. -/
def MAX_SEGMENT_NAME_LEN : Nat := 1024

/-- `SegmentSideEffect`.  A transaction records a tombstone without a commit id, and
    the one of its commit is taken. -/
inductive SegmentSideEffect where
  | promote (segmentId : SegmentId)
  | tombstone (segmentId : SegmentId) (tombstoneCommitId : Option CommitId)
  deriving DecidableEq, Repr

/-- `PendingTombstone`. -/
structure PendingTombstone where
  segmentId : SegmentId
  commitId : CommitId
  deriving DecidableEq, Repr

/-- `SegmentReconciliation`. -/
inductive SegmentReconciliation where
  | complete
  | deferred
  deriving DecidableEq, Repr

/-- What an effect fails with. -/
inductive SegmentError where
  | stagingMissing (segmentId : SegmentId)
  deriving DecidableEq, Repr

/-- The files under `seg/`: `.staging/<id>`, `<id>` and `.tombstone/<id>.<commit>`. -/
structure SegmentFiles where
  staging : List SegmentId
  live : List SegmentId
  tombstones : List (SegmentId × CommitId)
  deriving DecidableEq, Repr

/-- What the effects of a commit work on: the files and the deferred queue. -/
structure SegmentStore where
  files : SegmentFiles
  pendingTombstones : List PendingTombstone
  deriving DecidableEq, Repr

/-- `vfs.rename(staging, live)`. -/
def SegmentFiles.publish (f : SegmentFiles) (id : SegmentId) : SegmentFiles :=
  { f with staging := f.staging.filter (· ≠ id), live := id :: f.live }

/-- `vfs.rename(live, tomb)` followed by `vfs.remove(tomb)`. -/
def SegmentFiles.retire (f : SegmentFiles) (id : SegmentId) : SegmentFiles :=
  { f with live := f.live.filter (· ≠ id) }

/-- `promote_segment`. -/
def promoteSegment (f : SegmentFiles) (id : SegmentId) : Except SegmentError SegmentFiles :=
  if id ∈ f.live then .ok f
  else if id ∉ f.staging then .error (.stagingMissing id)
  else .ok (f.publish id)

/-- `enqueue_pending_tombstone`. -/
def enqueuePendingTombstone (q : List PendingTombstone) (p : PendingTombstone) :
    List PendingTombstone :=
  if p ∈ q then q else q ++ [p]

/-- `tombstone_segment`.  `pinned` says which ids a tracked reader's catalog
    snapshot names. -/
def tombstoneSegment (pinned : SegmentId → Bool) (s : SegmentStore) (id : SegmentId)
    (commit : CommitId) : SegmentStore × SegmentReconciliation :=
  if pinned id then
    ({ s with pendingTombstones := enqueuePendingTombstone s.pendingTombstones ⟨id, commit⟩ },
      .deferred)
  else if (id, commit) ∈ s.files.tombstones then
    -- a retirement interrupted between the rename and the removal
    ({ s with files :=
        { s.files with tombstones := s.files.tombstones.filter (· ≠ (id, commit)) } }, .complete)
  else if id ∉ s.files.live then (s, .complete)
  else ({ s with files := s.files.retire id }, .complete)

/-- The bound of one commit's drain, `MAX_PER_COMMIT`. -/
def MAX_PER_COMMIT : Nat := 32

/-- The loop of `drain_some_pending_tombstones` over the entries it took. -/
def drainTaken (pinned : SegmentId → Bool) : List PendingTombstone → SegmentStore → SegmentStore
  | [], s => s
  | entry :: taken, s =>
    if pinned entry.segmentId then
      drainTaken pinned taken
        { s with pendingTombstones := enqueuePendingTombstone s.pendingTombstones entry }
    else
      drainTaken pinned taken (tombstoneSegment pinned s entry.segmentId entry.commitId).1

/-- `drain_some_pending_tombstones`. -/
def drainSomePendingTombstones (pinned : SegmentId → Bool) (s : SegmentStore) : SegmentStore :=
  drainTaken pinned (s.pendingTombstones.take MAX_PER_COMMIT)
    { s with pendingTombstones := s.pendingTombstones.drop MAX_PER_COMMIT }

/-- The loop of `apply_segment_effects` over the effects, with the state an
    error leaves behind. -/
def applyEffectsFrom (pinned : SegmentId → Bool) (commit : CommitId) :
    List SegmentSideEffect → SegmentStore → Bool →
      SegmentStore × Except SegmentError SegmentReconciliation
  | [], s, deferred => (s, .ok (if deferred then .deferred else .complete))
  | .promote id :: effects, s, deferred =>
    match promoteSegment s.files id with
    | .error e => (s, .error e)
    | .ok files => applyEffectsFrom pinned commit effects { s with files := files } deferred
  | .tombstone id c :: effects, s, deferred =>
    let (s, outcome) := tombstoneSegment pinned s id (c.getD commit)
    applyEffectsFrom pinned commit effects s (deferred || outcome == .deferred)

/-- `apply_segment_effects`. -/
def applySegmentEffects (pinned : SegmentId → Bool) (effects : List SegmentSideEffect)
    (commit : CommitId) (s : SegmentStore) :
    SegmentStore × Except SegmentError SegmentReconciliation :=
  if effects = [] then (s, .ok .complete)
  else applyEffectsFrom pinned commit effects (drainSomePendingTombstones pinned s) false

/-- `reconcile_segment_effects`: one retry of the whole list. -/
def reconcileSegmentEffects (pinned : SegmentId → Bool) (effects : List SegmentSideEffect)
    (commit : CommitId) (s : SegmentStore) :
    SegmentStore × Except SegmentError SegmentReconciliation :=
  match applySegmentEffects pinned effects commit s with
  | (s, .ok outcome) => (s, .ok outcome)
  | (s, .error _) => applySegmentEffects pinned effects commit s

end Pagedb
