/-
  Pagedb.Txn.History — the commit-history index (`txn/db/catalog/history.rs`,
  `txn/db/catalog/history_policy.rs`, `txn/db/pending.rs`).

  The append and the prune are written against a `RowStore`, the four tree
  calls they make.  The rows of the index are keyed by commit id; the source
  stores the key big-endian, so the key order is the commit order, and its
  cursor `last_key ++ [0]` means "strictly after the row `last`".
-/
import Pagedb.Basic
import Pagedb.Lib.Exec

namespace Pagedb

/-! ## §1. Writer state, rows and policy -/

/-- `CommitHistoryMeta`: what a history row records. -/
structure CommitHistoryMeta where
  activeRootPageId : PageId
  catalogRootPageId : PageId
  freeListRootPageId : PageId
  nextPageId : PageId
  unixSeconds : Nat
  deriving DecidableEq, Repr

/-- `WriterState`, without the apply-journal id and the restore mode. -/
structure WriterState where
  rootPageId : PageId
  nextPageId : PageId
  latestCommitId : CommitId
  catalogRootPageId : PageId
  catalogRootTxnId : CommitId
  freeListRootPageId : PageId
  freeListEntries : Option Nat
  commitHistoryRootPageId : PageId
  commitHistoryRootVersion : Nat
  commitHistoryCount : Option Nat
  commitRetainPolicyTag : Nat
  commitRetainPolicyValue : Nat
  deriving DecidableEq, Repr

/-- `PendingWriterState`: the fields a candidate commit advances before it can
    know whether it will succeed. -/
structure PendingWriterState where
  nextPageId : PageId
  commitHistoryRootPageId : PageId
  commitHistoryRootVersion : Nat
  commitHistoryCount : Option Nat
  deriving DecidableEq, Repr

/-- `PendingWriterState::capture`. -/
def PendingWriterState.capture (state : WriterState) : PendingWriterState where
  nextPageId := state.nextPageId
  commitHistoryRootPageId := state.commitHistoryRootPageId
  commitHistoryRootVersion := state.commitHistoryRootVersion
  commitHistoryCount := state.commitHistoryCount

/-- `PendingWriterState::publish`. -/
def PendingWriterState.publish (p : PendingWriterState) (state : WriterState) : WriterState :=
  { state with
    nextPageId := p.nextPageId
    commitHistoryRootPageId := p.commitHistoryRootPageId
    commitHistoryRootVersion := p.commitHistoryRootVersion
    commitHistoryCount := p.commitHistoryCount }

/-- `RetainPolicy`. -/
inductive RetainPolicy where
  | count (n : Nat)
  | age (seconds : Nat)
  | unbounded
  | disabled
  deriving DecidableEq, Repr

/-- The header retention tag of `RetainPolicy::Disabled`. -/
def RETAIN_POLICY_TAG_DISABLED : Nat := 3

/-- `encode_retain_policy`. -/
def encodeRetainPolicy : RetainPolicy → Nat × Nat
  | .count n => (0, n)
  | .age seconds => (1, seconds)
  | .unbounded => (2, 0)
  | .disabled => (RETAIN_POLICY_TAG_DISABLED, 0)

/-- `history_rows_abandoned`. -/
def historyRowsAbandoned (retainTag : Nat) (historyRootPageId : PageId) : Bool :=
  retainTag == RETAIN_POLICY_TAG_DISABLED && historyRootPageId != 0

/-- `Db::history_rows_gone`. -/
def historyRowsGone (policy : RetainPolicy) (state : WriterState) : Bool :=
  policy == .disabled
    || historyRowsAbandoned state.commitRetainPolicyTag state.commitHistoryRootPageId

/-! ## §2. The append and the prune -/

/-- The calls the history code makes on its tree.  `collectBatchFrom last limit`
    returns the first `limit` rows strictly after `last`, or from the start. -/
structure RowStore (ε σ : Type) where
  get : CommitId → EStateM ε σ (Option CommitHistoryMeta)
  put : CommitId → CommitHistoryMeta → EStateM ε σ Unit
  delete : CommitId → EStateM ε σ Bool
  collectBatchFrom : Option CommitId → Nat → EStateM ε σ (List (CommitId × CommitHistoryMeta))

/-- `HISTORY_PRUNE_BATCH`. -/
def HISTORY_PRUNE_BATCH : Nat := 512

variable {ε σ : Type}

/-- The loop of `count_history_rows`.  Every turn but the last reads a full
    batch, so a bound on the number of rows bounds the turns. -/
def countHistoryRowsFrom (st : RowStore ε σ) :
    Nat → Option CommitId → Nat → EStateM ε σ Nat
  | 0, _, total => pure total
  | turns + 1, cursor, total => do
    let batch ← st.collectBatchFrom cursor HISTORY_PRUNE_BATCH
    match batch.getLast? with
    | none => pure total
    | some last =>
      let total := total + batch.length
      if batch.length < HISTORY_PRUNE_BATCH then pure total
      else countHistoryRowsFrom st turns (some last.1) total

/-- `count_history_rows`.  The rows are keyed by distinct commit ids up to
    `newCommitId`. -/
def countHistoryRows (st : RowStore ε σ) (newCommitId : CommitId) : EStateM ε σ Nat :=
  countHistoryRowsFrom st (newCommitId + 2) none 0

/-- Whether a live reader pins the row of `commit`. -/
def rowPinned (minPinned : Option CommitId) (commit : CommitId) : Bool :=
  minPinned.any (· ≤ commit)

/-- The inner loop of `prune_oldest_history_rows` over one batch.  The flag says
    that the whole prune returned from inside it. -/
def pruneBatch (st : RowStore ε σ) (excess : Nat) (minPinned : Option CommitId) :
    List (CommitId × CommitHistoryMeta) → Nat → EStateM ε σ (Nat × Bool)
  | [], deleted => pure (deleted, false)
  | (commit, _) :: batch, deleted =>
    if deleted ≥ excess then pure (deleted, true)
    else if rowPinned minPinned commit then pure (deleted, true)
    else do
      let removed ← st.delete commit
      pruneBatch st excess minPinned batch (if removed then deleted + 1 else deleted)

/-- The outer loop of `prune_oldest_history_rows`. -/
def pruneOldestFrom (st : RowStore ε σ) (excess : Nat) (minPinned : Option CommitId) :
    Nat → Option CommitId → Nat → EStateM ε σ Nat
  | 0, _, deleted => pure deleted
  | turns + 1, cursor, deleted =>
    if deleted < excess then do
      let want := min (excess - deleted) HISTORY_PRUNE_BATCH
      let batch ← st.collectBatchFrom cursor want
      match batch.getLast? with
      | none => pure deleted
      | some last =>
        let exhausted := batch.length < want
        let (deleted, returned) ← pruneBatch st excess minPinned batch deleted
        if returned || exhausted then pure deleted
        else pruneOldestFrom st excess minPinned turns (some last.1) deleted
    else pure deleted

/-- `prune_oldest_history_rows`.  Every turn that does not return takes at least
    one row strictly after the last, so the row bound bounds the turns. -/
def pruneOldestHistoryRows (st : RowStore ε σ) (newCommitId : CommitId) (excess : Nat)
    (minPinned : Option CommitId) : EStateM ε σ Nat :=
  pruneOldestFrom st excess minPinned (newCommitId + 2) none 0

/-- The inner loop of the `Age` prune over one batch.  The flag is the labelled
    break out of both loops. -/
def pruneAgeBatch (st : RowStore ε σ) (newCommitId : CommitId) (threshold : Nat)
    (minPinned : Option CommitId) :
    List (CommitId × CommitHistoryMeta) → Nat → EStateM ε σ (Nat × Bool)
  | [], deleted => pure (deleted, false)
  | (commit, row) :: batch, deleted =>
    -- never delete the entry just inserted
    if commit = newCommitId then pure (deleted, true)
    else if rowPinned minPinned commit then pure (deleted, true)
    else if row.unixSeconds ≥ threshold then pure (deleted, true)
    else do
      let removed ← st.delete commit
      pruneAgeBatch st newCommitId threshold minPinned batch
        (if removed then deleted + 1 else deleted)

/-- The outer loop of the `Age` prune. -/
def pruneAgeFrom (st : RowStore ε σ) (newCommitId : CommitId) (threshold : Nat)
    (minPinned : Option CommitId) : Nat → Option CommitId → Nat → EStateM ε σ Nat
  | 0, _, deleted => pure deleted
  | turns + 1, cursor, deleted => do
    let batch ← st.collectBatchFrom cursor HISTORY_PRUNE_BATCH
    match batch.getLast? with
    | none => pure deleted
    | some last =>
      let exhausted := batch.length < HISTORY_PRUNE_BATCH
      let (deleted, broken) ← pruneAgeBatch st newCommitId threshold minPinned batch deleted
      if broken || exhausted then pure deleted
      else pruneAgeFrom st newCommitId threshold minPinned turns (some last.1) deleted

/-- The row count after the put: the cached count, or a walk that already
    meets the new row. -/
def totalAfterPut (st : RowStore ε σ) (newCommitId : CommitId) (wasNew : Bool) :
    Option Nat → EStateM ε σ Nat
  | some c => pure (if wasNew then c + 1 else c)
  | none => countHistoryRows st newCommitId

/-- The prune call of the `Count` policy, skipped when nothing is over. -/
def pruneExcess (st : RowStore ε σ) (newCommitId : CommitId) (excess : Nat)
    (minPinned : Option CommitId) : EStateM ε σ Nat :=
  if excess = 0 then pure 0 else pruneOldestHistoryRows st newCommitId excess minPinned

/-- The row part of `write_commit_history_entry`: insert the new row, prune as
    the policy says, and return the new cached count. -/
def appendAndPrune (st : RowStore ε σ) (policy : RetainPolicy) (minPinned : Option CommitId)
    (nowSecs : Nat) (newCommitId : CommitId) (row : CommitHistoryMeta)
    (cached : Option Nat) : EStateM ε σ (Option Nat) := do
  let wasNew := (← st.get newCommitId).isNone
  st.put newCommitId row
  match policy with
  | .unbounded => pure (if wasNew then some (cached.getD 0 + 1) else cached)
  | .count n => do
    let total ← totalAfterPut st newCommitId wasNew cached
    let deleted ← pruneExcess st newCommitId (total - n) minPinned
    pure (some (total - deleted))
  | .age seconds =>
    let deleted ← pruneAgeFrom st newCommitId (nowSecs - seconds) minPinned (newCommitId + 2) none 0
    pure ((cached.map fun c => if wasNew then c + 1 else c).map (· - deleted))
  | .disabled => pure cached

section Rows

variable {m : Type → Type} [Monad m]

/-- The row the commit before this one may be owed: a segment repack publishes
    a commit id and writes no row.  A store with no history tree gets none. -/
def writeOwedHistoryRow (hasTree : Bool) (previous : WriterState) (unixSeconds : Nat)
    (get : CommitId → m (Option CommitHistoryMeta))
    (entry : CommitId → CommitHistoryMeta → m (List PageId)) : m (List PageId) :=
  if hasTree && previous.latestCommitId != 0 then do
    let owed ← get previous.latestCommitId
    if owed.isNone then
      entry previous.latestCommitId
        { activeRootPageId := previous.rootPageId
          catalogRootPageId := previous.catalogRootPageId
          freeListRootPageId := previous.freeListRootPageId
          nextPageId := previous.nextPageId
          unixSeconds }
    else pure []
  else pure []

/-- `write_commit_history_rows`: this commit's row, after a row for the commit
    before it if that one published none. -/
def writeCommitHistoryRows (hasTree : Bool) (previous : WriterState)
    (newCommitId : CommitId) (row : CommitHistoryMeta)
    (get : CommitId → m (Option CommitHistoryMeta))
    (entry : CommitId → CommitHistoryMeta → m (List PageId)) : m (List PageId) := do
  let freed ← writeOwedHistoryRow hasTree previous row.unixSeconds get entry
  let freedHere ← entry newCommitId row
  return freed ++ freedHere

end Rows

end Pagedb
