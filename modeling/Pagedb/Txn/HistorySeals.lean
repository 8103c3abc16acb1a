/-
  Pagedb.Txn.HistorySeals — proving a retained row stale from the seal order of
  its pages (`txn/db/catalog/history_seals.rs`, `recovery/history_report.rs`).

  A scan runs over the rows newest first.  It keeps the roots of the nearest
  later commit and the lowest seal of a later root that differs from a row's;
  a page of a row sealed at or after that bound was sealed after the row.
  The rows come from the history index in batches.
-/
import Pagedb.BTree.Seals
import Pagedb.Txn.Db

namespace Pagedb

/-! ## §1. State -/

/-- `DbMode`. -/
inductive DbMode where
  | standalone
  | follower
  | readOnly
  | observer
  deriving DecidableEq, Repr

/-- `SealOrderVoid`. -/
inductive SealOrderVoid where
  | rekeyedEpoch
  | mixedPageSeals
  | unauthenticatedNonce
  | observerHandle
  | unreadableLiveRoot
  | scanInterrupted
  deriving DecidableEq, Repr

/-- `HistorySealVerdict`. -/
inductive HistorySealVerdict where
  | noRows
  | compared
  | inconclusive (void : SealOrderVoid)
  deriving DecidableEq, Repr

/-- `ResealEvidence`. -/
structure ResealEvidence where
  page : SealedPage
  laterRoot : SealedPage
  deriving DecidableEq, Repr

/-- `StaleRowEvidence`. -/
inductive StaleRowEvidence where
  | sealedAfterLaterRoot (found : ResealEvidence)
  | unreadablePages (error : TreeError)
  deriving DecidableEq, Repr

/-- `StaleHistoryRow`. -/
structure StaleHistoryRow where
  commit : CommitId
  evidence : StaleRowEvidence
  deriving DecidableEq, Repr

/-- `HistorySealScan`.  The later roots are the data root and the catalog root. -/
structure HistorySealScan where
  ledger : SealLedger
  laterRoots : PageId × PageId
  bound : Option SealedPage
  void : Option SealOrderVoid

/-- What of a handle decides whether its store can show seal order. -/
structure SealHandle where
  mode : DbMode
  mkEpoch : Nat
  cipherId : CipherId
  fileId : Bytes
  deriving DecidableEq, Repr

/-- `seal_order_void`. -/
def SealHandle.sealOrderVoid (handle : SealHandle) : Option SealOrderVoid :=
  if handle.mode = .observer then some .observerHandle
  else if handle.mkEpoch > 0 then some .rekeyedEpoch
  else if handle.cipherId = .plaintextMac then some .unauthenticatedNonce
  else none

/-- `begin_history_seal_scan`. -/
def beginHistorySealScan (handle : SealHandle) (roots : PageId × PageId) : HistorySealScan where
  ledger := SealLedger.new handle.fileId
  laterRoots := roots
  bound := none
  void := handle.sealOrderVoid

/-! ## §2. One row -/

/-- A program of a scan. -/
abbrev ScanM := EStateM TreeError HistorySealScan

variable {α : Type}

/-- A walk into the scan's ledger, with the pages it read first. -/
def onLedger (x : SealM α) : ScanM (α × List PageId) := fun scan =>
  match x { ledger := scan.ledger, reached := [] } with
  | .ok a w => .ok (a, w.reached) { scan with ledger := w.ledger }
  | .error e w => .error e { scan with ledger := w.ledger }

/-- `void.get_or_insert`. -/
def HistorySealScan.voided (scan : HistorySealScan) (void : SealOrderVoid) : HistorySealScan :=
  { scan with void := some (scan.void.getD void) }

/-- Both trees of one row. -/
def walkRowSeals (file : SealedFile) (m : CommitHistoryMeta) : SealM (Option SealedPage) := do
  let data ← walkPageSeals file m.activeRootPageId
  let catalog ← walkPageSeals file m.catalogRootPageId
  pure (SealedPage.newer (SealedPage.newer none data) catalog)

/-- `read_main_node_sealed` of a page that is no node. -/
def SealedFile.readNode (file : SealedFile) (id : PageId) : Except TreeError SealedRead :=
  match file.read id with
  | .error e => .error e
  | .ok read => if read.page.role? = some .node then .ok read else .error .illegalPageKind

/-- `later_root_seal`. -/
def laterRootSeal (file : SealedFile) (id : PageId) : ScanM (Option SealedPage) := do
  let scan ← get
  match scan.ledger.own id with
  | some found => pure (some found)
  | none =>
    match file.readNode id with
    | .ok read => do
      let (found, ledger) := scan.ledger.comparable id read.stamp
      set { scan with ledger }
      pure found
    | .error e =>
      if e.provesUnreadablePages then do
        set (scan.voided .unreadableLiveRoot)
        pure none
      else throw e

/-- One turn of the loop over the later roots. -/
def raiseBound (file : SealedFile) (laterRoot rowRoot : PageId) : ScanM Unit :=
  if laterRoot = 0 ∨ laterRoot = rowRoot then pure ()
  else do
    let found ← laterRootSeal file laterRoot
    modify fun scan => { scan with bound := SealedPage.older scan.bound found }

/-- What the scan concludes about a row whose newest seal is known. -/
def HistorySealScan.evidence (scan : HistorySealScan) (newest : Option SealedPage) :
    Option ResealEvidence :=
  match scan.void, newest, scan.bound with
  | none, some page, some laterRoot =>
    if page.counter ≥ laterRoot.counter then some { page, laterRoot } else none
  | _, _, _ => none

/-- `scan_history_row`. -/
def scanHistoryRow (file : SealedFile) (m : CommitHistoryMeta) :
    ScanM (List PageId × Option ResealEvidence) := do
  let (newest, reached) ← onLedger (walkRowSeals file m)
  let later := (← get).laterRoots
  modify fun scan => { scan with laterRoots := (m.activeRootPageId, m.catalogRootPageId) }
  raiseBound file later.1 m.activeRootPageId
  raiseBound file later.2 m.catalogRootPageId
  modify fun scan => if scan.ledger.sawForeignSeal then scan.voided .mixedPageSeals else scan
  let scan ← get
  pure (reached, scan.evidence newest)

/-- A row as the index holds it. -/
def scanRowBytes (file : SealedFile) (row : Bytes) : ScanM (List PageId × Option ResealEvidence) :=
  match decodeCommitMeta row with
  | some m => scanHistoryRow file m
  | none => throw .catalogRowInvalid

/-- A call whose error the caller looks at. -/
def attempt {σ : Type} (x : EStateM TreeError σ α) : EStateM TreeError σ (Except TreeError α) :=
  fun s =>
    match x s with
    | .ok a s => .ok (.ok a) s
    | .error e s => .ok (.error e) s

/-! ## §3. All rows -/

/-- `HISTORY_ROW_BATCH`. -/
def HISTORY_ROW_BATCH : Nat := 512

/-- The commit id of a row's key. -/
def rowCommit (key : Bytes) : ScanM CommitId :=
  match historyRowCommit key with
  | some commit => pure commit
  | none => throw .catalogRowInvalid

/-- The inner loop of `newest_resealed_history_row`: what the call returns from
    inside it, if it does. -/
def resealedInBatch (file : SealedFile) (prunedThrough : Option CommitId) :
    List (Bytes × Bytes) → ScanM (Option (Option CommitId))
  | [] => pure none
  | (key, row) :: batch => do
    let commit ← rowCommit key
    if prunedThrough.any (commit ≤ ·) then pure (some none)
    else
      match ← attempt (scanRowBytes file row) with
      | .ok (_, some _) => pure (some (some commit))
      | .ok (_, none) =>
        if (← get).void.isSome then pure (some none)
        else resealedInBatch file prunedThrough batch
      | .error e => if e.provesUnreadablePages then pure (some (some commit)) else throw e

/-- The inner loop of `collect_stale_rows`: the rows condemned so far, and the
    error that ended the scan, if one did. -/
def staleInBatch (file : SealedFile) :
    List (Bytes × Bytes) → List StaleHistoryRow → ScanM (List StaleHistoryRow × Option TreeError)
  | [], condemned => pure (condemned, none)
  | (key, row) :: batch, condemned =>
    match historyRowCommit key with
    | none => pure (condemned, some .catalogRowInvalid)
    | some commit => do
      match ← attempt (scanRowBytes file row) with
      | .ok (_, some found) =>
        staleInBatch file batch (condemned ++ [{ commit, evidence := .sealedAfterLaterRoot found }])
      | .ok (_, none) => staleInBatch file batch condemned
      | .error e =>
        if e.provesUnreadablePages then
          staleInBatch file batch (condemned ++ [{ commit, evidence := .unreadablePages e }])
        else pure (condemned, some e)

section Batches

variable {σ : Type}

/-- A scan beside what the rows are read from. -/
structure RowScan (σ : Type) where
  source : σ
  scan : HistorySealScan

/-- The history index read backwards: the rows before a key, newest first. -/
abbrev RevRows (σ : Type) := Option Bytes → Nat → EStateM TreeError σ (List (Bytes × Bytes))

/-- A program of a pass over the rows. -/
abbrev PassM (σ : Type) := EStateM TreeError (RowScan σ)

/-- A read of rows. -/
def onSource (x : EStateM TreeError σ α) : PassM σ α := fun s =>
  match x s.source with
  | .ok a source => .ok a { s with source }
  | .error e source => .error e { s with source }

/-- A step of the scan. -/
def onScan (x : ScanM α) : PassM σ α := fun s =>
  match x s.scan with
  | .ok a scan => .ok a { s with scan }
  | .error e scan => .error e { s with scan }

/-- The outer loop of `newest_resealed_history_row`.  Every turn but the last
    takes a full batch, so the number of rows bounds the turns. -/
def newestResealedFrom (file : SealedFile) (rows : RevRows σ) (prunedThrough : Option CommitId) :
    Nat → Option Bytes → PassM σ (Option CommitId)
  | 0, _ => throw .diverges
  | turns + 1, before => do
    let batch ← onSource (rows before HISTORY_ROW_BATCH)
    match ← onScan (resealedInBatch file prunedThrough batch) with
    | some found => pure found
    | none =>
      if batch.length < HISTORY_ROW_BATCH then pure none
      else newestResealedFrom file rows prunedThrough turns (batch.getLast?.map Prod.fst)

/-- `newest_resealed_history_row`. -/
def newestResealedHistoryRow (file : SealedFile) (rows : RevRows σ)
    (prunedThrough : Option CommitId) (turns : Nat) : PassM σ (Option CommitId) := do
  if (← get).scan.void.isSome then pure none
  else newestResealedFrom file rows prunedThrough turns none

/-- The outer loop of `collect_stale_rows`. -/
def collectStaleFrom (file : SealedFile) (rows : RevRows σ) :
    Nat → Option Bytes → List StaleHistoryRow → PassM σ (List StaleHistoryRow × Option TreeError)
  | 0, _, condemned => pure (condemned, some .diverges)
  | turns + 1, before, condemned => do
    match ← attempt (onSource (rows before HISTORY_ROW_BATCH)) with
    | .error e => pure (condemned, some e)
    | .ok batch =>
      match ← onScan (staleInBatch file batch condemned) with
      | (condemned, some e) => pure (condemned, some e)
      | (condemned, none) =>
        if batch.length < HISTORY_ROW_BATCH then pure (condemned, none)
        else collectStaleFrom file rows turns (batch.getLast?.map Prod.fst) condemned

/-- `report_stale_history_rows` on a handle whose store holds rows it keeps. -/
def reportStaleRows (file : SealedFile) (rows : RevRows σ) (turns : Nat) :
    PassM σ (List StaleHistoryRow × HistorySealVerdict × Option TreeError) := do
  match (← get).scan.void with
  | some void => pure ([], .inconclusive void, none)
  | none => do
    let (condemned, error) ← collectStaleFrom file rows turns none []
    let verdict := match (← get).scan.void, error with
      | _, some _ => .inconclusive .scanInterrupted
      | some void, none => .inconclusive void
      | none, none => .compared
    pure (condemned, verdict, error)

end Batches

end Pagedb
