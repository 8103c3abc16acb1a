/-
  Pagedb.Recovery.DeepWalk — the offline check of a store
  (`recovery/deep_walk.rs`).

  The walk collects the pages of the three trees, reads the free-list chain,
  holds the chain's entries against the trees, and then reads every page of the
  file past the cache.  A page that no tree and no part of the free list names
  is an orphan.  The pages of the trees are gathered in one set, so a page two
  trees share, or two parents of one tree, is not seen; nor is an entry that
  names a page of the chain itself.

  Main results:
    * `runDeepWalk_accounts` — what a clean report does say;
    * `clean_walk_partitions` — the trees, the entries and the chain are a partition
      of the page space exactly when their counts add up.
-/
import Pagedb.BTree.Calls
import Pagedb.Pager.FreeChain
import Pagedb.Txn.SealScan

namespace Pagedb

open Lib

/-! ## §1. The report -/

/-- The trees the walk collects. -/
inductive WalkedTree where
  | main
  | catalog
  | commitHistory
  deriving DecidableEq, Repr

/-- What a `PageIssue` describes. -/
inductive PageFinding where
  /-- `{tree} reachability walk failed: {error}` -/
  | walkFailed (tree : WalkedTree) (error : TreeError)
  /-- `commit-history row scan stopped: {error}` -/
  | rowScanStopped (error : TreeError)
  /-- `free-list entry references a page past next_page_id` -/
  | entryPastNextPageId
  /-- `page is both live (reachable from a root) and free-listed` -/
  | liveAndFreeListed
  /-- `duplicate free-list entry` -/
  | duplicateEntry
  /-- `free-list chain unreadable: {error}` -/
  | chainUnreadable (error : TreeError)
  /-- `cannot open main.db: {error}` -/
  | cannotOpen
  /-- The page's offset is no `u64`. -/
  | offsetOverflow
  /-- `truncated: …` or `read error: …` -/
  | readFailed
  /-- `unreadable page header (cipher_id / epoch extraction failed)` -/
  | unreadableHeader
  /-- `AEAD verification failed` -/
  | authenticationFailed
  /-- `catalog scan failed: {error}` -/
  | catalogScanFailed (error : TreeError)
  deriving DecidableEq, Repr

/-- `PageIssue`. -/
structure PageIssue where
  pageId : PageId
  finding : PageFinding
  deriving DecidableEq, Repr

/-- What `check_segment` finds for one catalog row: issues of the segment's
    pages, and drift between the row and the file. -/
structure SegmentFindings where
  segmentIssues : List String
  driftIssues : List String
  deriving DecidableEq, Repr

/-- `DeepWalkReport`. -/
structure DeepWalkReport where
  pageIssues : List PageIssue
  segmentIssues : List String
  orphanPageIds : List PageId
  driftIssues : List String
  pagesExamined : Nat
  segmentsExamined : Nat
  staleHistoryRows : List StaleHistoryRow
  historySealVerdict : HistorySealVerdict
  deriving DecidableEq, Repr

/-- `DeepWalkReport::is_clean`. -/
def DeepWalkReport.isClean (report : DeepWalkReport) : Bool :=
  report.pageIssues.isEmpty && report.segmentIssues.isEmpty && report.driftIssues.isEmpty
    && report.orphanPageIds.isEmpty && report.staleHistoryRows.isEmpty

/-! ## §2. The walk -/

/-- The pages of several trees. -/
def PageView.forestPages (view : PageView) (roots : List PageId) : Set PageId :=
  { id | ∃ root ∈ roots, id ∈ view.treePages root }

/-- A page of the file, as its bytes read past the cache. -/
inductive RawPage where
  | unreadable
  | zeroed
  | badHeader
  | forged
  | authentic
  deriving DecidableEq, Repr

/-- The handle the walk runs on.  It is not poisoned, and its writer is idle. -/
structure DeepWalkHandle where
  opts : Options
  handle : SealHandle
  state : WriterState
  /-- The sealed pages the row scan reads. -/
  file : SealedFile
  /-- Whether `main.db` opens. -/
  opens : Bool
  raw : PageId → RawPage
  /-- `check_segment` of a catalog row, if the row decodes. -/
  checkSegment : Bytes → Option SegmentFindings

namespace DeepWalkHandle

variable (db : DeepWalkHandle)

/-- The roots of the three trees. -/
def roots : List PageId :=
  [db.state.rootPageId, db.state.catalogRootPageId, db.state.commitHistoryRootPageId]

/-- A tree of the store, opened to be read. -/
def tree (root : PageId) : BTree :=
  BTree.open db.opts.pageSize root db.state.nextPageId none

/-- One turn of the loop of `collect_reachable_pages`.  What a failed walk had
    listed is left out: its issue is in the report. -/
def walkTree (name : WalkedTree) (root : PageId) (acc : List PageId × List PageIssue) :
    SharedM (List PageId × List PageIssue) :=
  if root = 0 then pure acc
  else do
    match ← attempt (onTree (db.tree root) collectAllPageIds) with
    | .ok (ids, _) => pure (acc.1 ++ ids, acc.2)
    | .error e => pure (acc.1, acc.2 ++ [{ pageId := root, finding := .walkFailed name e }])

/-- `collect_reachable_pages`. -/
def collectReachablePages : SharedM (List PageId × List PageIssue) := do
  let acc ← db.walkTree .main db.state.rootPageId (List.range FIRST_DATA_PAGE, [])
  let acc ← db.walkTree .catalog db.state.catalogRootPageId acc
  db.walkTree .commitHistory db.state.commitHistoryRootPageId acc

/-- Where the scan of the history rows starts. -/
def historyScan (shared : SharedPages) : RowScan Session where
  source := { toBTree := db.tree db.state.commitHistoryRootPageId, toSharedPages := shared }
  scan := beginHistorySealScan db.handle (db.state.rootPageId, db.state.catalogRootPageId)

/-- `report_stale_history_rows`.  Rows have distinct commit ids, so their number
    bounds the turns. -/
def reportStaleHistoryRows :
    SharedM (List StaleHistoryRow × HistorySealVerdict × Option TreeError) := fun shared =>
  if db.state.commitHistoryRootPageId = 0 ∨ historyRowsGone db.opts.commitHistoryRetain db.state then
    .ok ([], .noRows, none) shared
  else
    match reportStaleRows db.file collectRevBatchBefore U64_MAX (db.historyScan shared) with
    | .ok r pass => .ok r pass.source.toSharedPages
    | .error e pass => .error e pass.source.toSharedPages

/-- The loop over the free-list entries. -/
def entryIssues (next : PageId) (live : List PageId) :
    List PageId → List (CommitId × PageId) → List PageIssue
  | _, [] => []
  | seen, (_, id) :: entries =>
    (if next ≤ id then [{ pageId := id, finding := .entryPastNextPageId }]
     else if id ∈ live then [{ pageId := id, finding := .liveAndFreeListed }]
     else [])
      ++ (if id ∈ seen then [{ pageId := id, finding := .duplicateEntry }] else [])
      ++ entryIssues next live (id :: seen) entries

/-- The free list: its pages and entries join the pages accounted for. -/
def walkFreeList (live : List PageId) : SharedM (List PageId × List PageIssue) := do
  match ← attempt (onPager (readFreeChain db.state.freeListRootPageId)) with
  | .ok (entries, chainPages) =>
    pure (live ++ chainPages ++ entries.map Prod.snd,
      entryIssues db.state.nextPageId live [] entries)
  | .error e =>
    pure (live, [{ pageId := db.state.freeListRootPageId, finding := .chainUnreadable e }])

/-- A page nothing accounts for, on a handle that owns the page space. -/
def orphan (live : List PageId) (id : PageId) : List PageId :=
  if db.handle.mode = .standalone ∧ id ∉ live then [id] else []

/-- One turn of the loop over the pages of the file. -/
def examinePage (live : List PageId) (id : PageId) : List PageIssue × List PageId :=
  if U64_MAX < id * db.opts.pageSize then ([{ pageId := id, finding := .offsetOverflow }], [])
  else
    match db.raw id with
    | .unreadable => ([{ pageId := id, finding := .readFailed }], [])
    | .zeroed => ([], db.orphan live id)
    | .badHeader => ([{ pageId := id, finding := .unreadableHeader }], [])
    | .forged => ([{ pageId := id, finding := .authenticationFailed }], [])
    | .authentic => ([], db.orphan live id)

/-- The pages the loop visits. -/
def pageIds : List PageId := List.range' FIRST_DATA_PAGE (db.state.nextPageId - FIRST_DATA_PAGE)

/-- The segments the catalog names. -/
def walkSegments (report : DeepWalkReport) : SharedM DeepWalkReport :=
  if db.state.catalogRootPageId = 0 then pure report
  else do
    match ← attempt (onTree (db.tree db.state.catalogRootPageId) (scanPrefix [0x01])) with
    | .error e =>
      pure { report with
        pageIssues := report.pageIssues
          ++ [{ pageId := db.state.catalogRootPageId, finding := .catalogScanFailed e }] }
    | .ok (rows, _) =>
      let found := rows.map fun row => db.checkSegment row.2
      let undecoded : SegmentFindings :=
        { segmentIssues := [], driftIssues := ["catalog decode error"] }
      pure { report with
        segmentIssues := report.segmentIssues
          ++ found.flatMap fun f => (f.getD undecoded).segmentIssues
        driftIssues := report.driftIssues ++ found.flatMap fun f => (f.getD undecoded).driftIssues
        segmentsExamined := (found.filter Option.isSome).length }

/-- `run_deep_walk`. -/
def runDeepWalk : SharedM DeepWalkReport := do
  let (live, walkIssues) ← db.collectReachablePages
  let (staleHistoryRows, historySealVerdict, error) ← db.reportStaleHistoryRows
  let scanIssues := error.toList.map fun e =>
    { pageId := db.state.commitHistoryRootPageId, finding := .rowScanStopped e }
  let (live, chainIssues) ← db.walkFreeList live
  let report : DeepWalkReport :=
    { pageIssues := walkIssues ++ scanIssues ++ chainIssues
      segmentIssues := [], orphanPageIds := [], driftIssues := []
      pagesExamined := 0, segmentsExamined := 0, staleHistoryRows, historySealVerdict }
  if db.opens then
    let found := db.pageIds.map (db.examinePage live)
    db.walkSegments { report with
      pageIssues := report.pageIssues ++ found.flatMap Prod.fst
      orphanPageIds := found.flatMap Prod.snd
      pagesExamined := db.pageIds.length }
  else
    pure { report with
      pageIssues := report.pageIssues ++ [{ pageId := 0, finding := .cannotOpen }] }

/-! ## §3. What a clean report says -/

variable {db : DeepWalkHandle} {shared shared' : SharedPages}

variable {α σ : Type} {live : List PageId} {I : σ → Prop} {x : EStateM TreeError σ α}

theorem onTree_eq_ok {tree tree' : BTree} {x : TreeM α} {a : α}
    (h : onTree tree x shared = .ok (a, tree') shared') :
    ∃ s, x { toBTree := tree, toSharedPages := shared } = .ok a s
      ∧ s.toBTree = tree' ∧ s.toSharedPages = shared' := by
  unfold onTree at h
  cases hx : x { toBTree := tree, toSharedPages := shared } with
  | ok b s =>
    rw [hx] at h
    cases h
    exact ⟨s, rfl, rfl, rfl⟩
  | error e s =>
    rw [hx] at h
    cases h

theorem attempt_eq_ok {s t : σ} {r : Except TreeError α} (h : attempt x s = .ok r t) :
    (∃ a, r = .ok a ∧ x s = .ok a t) ∨ ∃ e, r = .error e ∧ x s = .error e t := by
  unfold attempt at h
  cases hx : x s with
  | ok a u =>
    rw [hx] at h
    cases h
    exact Or.inl ⟨a, rfl, rfl⟩
  | error e u =>
    rw [hx] at h
    cases h
    exact Or.inr ⟨e, rfl, rfl⟩

/-- A walk of a tree that adds no issue adds the pages of the tree. -/
theorem walkTree_clean {name : WalkedTree} {root : PageId} {acc : List PageId × List PageIssue}
    (h : db.walkTree name root acc shared = .ok (live, []) shared') :
    acc.2 = [] ∧ shared'.pager.view = shared.pager.view
      ∧ (∀ id, id ∈ live ↔ id ∈ acc.1 ∨ id ∈ shared.pager.view.treePages root)
      ∧ ∀ id ∈ shared.pager.view.treePages root, shared.pager.view.Checked id := by
  obtain ⟨before, issues⟩ := acc
  unfold walkTree at h
  split_ifs at h with hroot
  · cases h
    refine ⟨rfl, rfl, fun id => ?_, fun id hid => absurd hroot hid.1⟩
    exact ⟨Or.inl, fun hid => hid.resolve_right fun hin => hin.1 hroot⟩
  · obtain ⟨r, t, hattempt, h⟩ := bind_eq_ok.mp h
    rcases attempt_eq_ok hattempt with ⟨⟨ids, tree'⟩, rfl, hrun⟩ | ⟨e, rfl, -⟩
    · obtain ⟨s, hcollect, -, rfl⟩ := onTree_eq_ok hrun
      obtain ⟨hquiet, hids, hchecked⟩ := collectAllPageIds_spec hcollect
      cases h
      refine ⟨rfl, hquiet.view, fun id => ?_, fun id hid => hchecked id ((hids id).mpr hid)⟩
      rw [List.mem_append, hids id]
      exact Iff.rfl
    · have h := (pure_eq_ok.mp h).1
      exact absurd (congrArg Prod.snd h) (List.append_ne_nil_of_right_ne_nil _ (by simp))

/-- What the three walks list together. -/
theorem collectReachablePages_clean (h : db.collectReachablePages shared = .ok (live, []) shared') :
    shared'.pager.view = shared.pager.view
      ∧ (∀ id, id ∈ live ↔ id < FIRST_DATA_PAGE ∨ id ∈ shared.pager.view.forestPages db.roots)
      ∧ ∀ id ∈ shared.pager.view.forestPages db.roots, shared.pager.view.Checked id := by
  unfold collectReachablePages at h
  obtain ⟨⟨live₁, issues₁⟩, s₁, hmain, h⟩ := bind_eq_ok.mp h
  obtain ⟨⟨live₂, issues₂⟩, s₂, hcatalog, hhistory⟩ := bind_eq_ok.mp h
  obtain ⟨hnone₂, hview₃, hlive₃, hchecked₃⟩ := walkTree_clean hhistory
  cases hnone₂
  obtain ⟨hnone₁, hview₂, hlive₂, hchecked₂⟩ := walkTree_clean hcatalog
  cases hnone₁
  obtain ⟨-, hview₁, hlive₁, hchecked₁⟩ := walkTree_clean hmain
  rw [hview₂, hview₁] at hview₃ hlive₃ hchecked₃
  rw [hview₁] at hlive₂ hchecked₂
  have hforest : ∀ id, id ∈ shared.pager.view.forestPages db.roots
      ↔ id ∈ shared.pager.view.treePages db.state.rootPageId
        ∨ id ∈ shared.pager.view.treePages db.state.catalogRootPageId
        ∨ id ∈ shared.pager.view.treePages db.state.commitHistoryRootPageId := by
    intro id
    simp [PageView.forestPages, roots]
  refine ⟨hview₃, fun id => ?_, fun id hid => ?_⟩
  · rw [hforest id, hlive₃ id, hlive₂ id, hlive₁ id, List.mem_range, or_assoc, or_assoc]
  · rcases (hforest id).mp hid with hmain | hcatalog | hhistory
    · exact hchecked₁ id hmain
    · exact hchecked₂ id hcatalog
    · exact hchecked₃ id hhistory

theorem attempt_keeps (h : Keeps I x) : Keeps I (attempt x) := by
  intro s hs
  obtain ⟨r, hrun⟩ := attempt_eq x s
  rw [hrun]
  exact h s hs

theorem onSource_keeps (h : Keeps I x) :
    Keeps (fun pass : RowScan σ => I pass.source) (onSource x) := by
  intro pass hpass
  have hend := h pass.source hpass
  unfold onSource
  cases hrun : x pass.source with
  | ok a t =>
    rw [hrun] at hend
    exact hend
  | error e t =>
    rw [hrun] at hend
    exact hend

theorem onScan_keeps (x : ScanM α) : Keeps (fun pass : RowScan σ => I pass.source) (onScan x) := by
  intro pass hpass
  unfold onScan
  cases hrun : x pass.scan with
  | ok a t => exact hpass
  | error e t => exact hpass

theorem collectStaleFrom_quiet {s₀ : Session} {file : SealedFile} (turns : Nat) :
    ∀ before condemned, Keeps (fun pass : RowScan Session => s₀.Quiet pass.source)
      (collectStaleFrom file collectRevBatchBefore turns before condemned) := by
  induction turns with
  | zero => exact fun _ _ => Keeps.pure _
  | succ turns ih =>
    intro before condemned
    unfold collectStaleFrom
    refine Keeps.bind ?_ fun r => ?_
    · exact attempt_keeps (onSource_keeps (collectRevBatchBefore_quiet before _))
    · cases r with
      | error e => exact Keeps.pure _
      | ok batch =>
        refine Keeps.bind (onScan_keeps _) fun r => ?_
        obtain ⟨condemned', error⟩ := r
        cases error with
        | some e => exact Keeps.pure _
        | none => exact (Keeps.pure _).ite (ih _ _)

theorem reportStaleRows_quiet {s₀ : Session} {file : SealedFile} (turns : Nat) :
    Keeps (fun pass : RowScan Session => s₀.Quiet pass.source)
      (reportStaleRows file collectRevBatchBefore turns) := by
  unfold reportStaleRows
  refine Keeps.get.bind fun pass => ?_
  cases pass.scan.void with
  | some void => exact Keeps.pure _
  | none =>
    refine (collectStaleFrom_quiet turns _ _).bind fun r => ?_
    obtain ⟨condemned, error⟩ := r
    exact Keeps.get.bind fun pass => Keeps.pure _

theorem reportStaleHistoryRows_view
    {r : List StaleHistoryRow × HistorySealVerdict × Option TreeError}
    (h : db.reportStaleHistoryRows shared = .ok r shared') :
    shared'.pager.view = shared.pager.view := by
  unfold reportStaleHistoryRows at h
  split_ifs at h with hnone
  · cases h
    rfl
  · have hquiet := @reportStaleRows_quiet _ db.file U64_MAX (db.historyScan shared)
      (Session.Quiet.refl _)
    cases hrun : reportStaleRows db.file collectRevBatchBefore U64_MAX (db.historyScan shared) with
    | ok a pass =>
      rw [hrun] at h hquiet
      cases h
      exact hquiet.view
    | error e pass =>
      rw [hrun] at h
      cases h

/-- The entries nothing is said against. -/
theorem entryIssues_eq_nil {next : PageId} :
    ∀ {entries : List (CommitId × PageId)} {seen : List PageId},
      entryIssues next live seen entries = [] →
      (∀ e ∈ entries, e.2 < next ∧ e.2 ∉ live ∧ e.2 ∉ seen) ∧ (entries.map Prod.snd).Nodup
  | [], _, _ => ⟨nofun, List.nodup_nil⟩
  | (commit, id) :: entries, seen, h => by
    unfold entryIssues at h
    obtain ⟨h, hrest⟩ := List.append_eq_nil_iff.mp h
    obtain ⟨hentry, hseen⟩ := List.append_eq_nil_iff.mp h
    obtain ⟨hin, hnodup⟩ := entryIssues_eq_nil hrest
    have hlt : id < next := by
      by_contra hge
      rw [if_pos (Nat.not_lt.mp hge)] at hentry
      cases hentry
    have hlive : id ∉ live := by
      intro hmem
      rw [if_neg (Nat.not_le.mpr hlt), if_pos hmem] at hentry
      cases hentry
    have hnew : id ∉ seen := by
      intro hmem
      rw [if_pos hmem] at hseen
      cases hseen
    refine ⟨fun e he => ?_, List.nodup_cons.mpr ⟨fun hmem => ?_, hnodup⟩⟩
    · rcases List.mem_cons.mp he with rfl | he
      · exact ⟨hlt, hlive, hnew⟩
      · obtain ⟨h1, h2, h3⟩ := hin e he
        exact ⟨h1, h2, fun hmem => h3 (List.mem_cons_of_mem _ hmem)⟩
    · obtain ⟨e, he, rfl⟩ := List.mem_map.mp hmem
      exact (hin e he).2.2 List.mem_cons_self

theorem walkFreeList_clean {live' : List PageId}
    (h : db.walkFreeList live shared = .ok (live', []) shared') :
    ∃ run, FreeRun shared.pager.page db.state.freeListRootPageId run 0
      ∧ (∀ id, id ∈ live' ↔ id ∈ live ∨ id ∈ run.map Prod.fst
          ∨ id ∈ (run.flatMap fun e => e.2.entries).map Prod.snd)
      ∧ (∀ e ∈ run.flatMap (fun e => e.2.entries), e.2 < db.state.nextPageId ∧ e.2 ∉ live)
      ∧ ((run.flatMap fun e => e.2.entries).map Prod.snd).Nodup := by
  unfold walkFreeList at h
  obtain ⟨r, t, hattempt, h⟩ := bind_eq_ok.mp h
  rcases attempt_eq_ok hattempt with ⟨⟨entries, pages⟩, rfl, hrun⟩ | ⟨e, rfl, -⟩
  · unfold onPager at hrun
    cases hread : readFreeChain db.state.freeListRootPageId shared.pager with
    | error e p =>
      rw [hread] at hrun
      cases hrun
    | ok found p =>
      rw [hread] at hrun
      cases hrun
      obtain ⟨-, run, hchain, rfl, rfl⟩ := readFreeChain_spec hread
      have h := (pure_eq_ok.mp h).1
      obtain ⟨hin, hnodup⟩ := entryIssues_eq_nil (congrArg Prod.snd h)
      refine ⟨run, hchain, fun id => ?_, fun e he => ⟨(hin e he).1, (hin e he).2.1⟩, hnodup⟩
      have hlive := congrArg Prod.fst h
      dsimp only at hlive
      rw [← hlive, List.mem_append, List.mem_append, or_assoc]
  · cases (congrArg Prod.snd (pure_eq_ok.mp h).1)

/-- A page the loop has nothing to say about is accounted for. -/
theorem examinePage_clean (hmode : db.handle.mode = .standalone) {id : PageId}
    (h : db.examinePage live id = ([], [])) : id ∈ live := by
  have horphan : db.orphan live id = [] → id ∈ live := by
    intro h
    by_contra hnot
    unfold orphan at h
    rw [if_pos ⟨hmode, hnot⟩] at h
    cases h
  unfold examinePage at h
  split_ifs at h with hoffset
  · cases (congrArg Prod.fst h)
  · cases hraw : db.raw id with
    | zeroed =>
      rw [hraw] at h
      exact horphan (congrArg Prod.snd h)
    | authentic =>
      rw [hraw] at h
      exact horphan (congrArg Prod.snd h)
    | _ =>
      rw [hraw] at h
      cases (congrArg Prod.fst h)

/-- The segments add to the report. -/
theorem walkSegments_grows {report report' : DeepWalkReport}
    (h : db.walkSegments report shared = .ok report' shared') :
    report.pageIssues <+: report'.pageIssues ∧ report'.orphanPageIds = report.orphanPageIds := by
  unfold walkSegments at h
  split_ifs at h with hroot
  · cases h
    exact ⟨List.prefix_rfl, rfl⟩
  · obtain ⟨r, t, hattempt, h⟩ := bind_eq_ok.mp h
    rcases attempt_eq_ok hattempt with ⟨⟨rows, tree'⟩, rfl, -⟩ | ⟨e, rfl, -⟩
    · cases h
      exact ⟨List.prefix_rfl, rfl⟩
    · cases h
      exact ⟨List.prefix_append _ _, rfl⟩

/-- **What a clean report says.**  The trees were walked, the chain was read,
    its entries are distinct and outside the trees, and every page below
    `next_page_id` is in a tree, in the chain or an entry of it. -/
theorem runDeepWalk_accounts {report : DeepWalkReport} (hmode : db.handle.mode = .standalone)
    (h : db.runDeepWalk shared = .ok report shared') (hclean : report.isClean = true) :
    ∃ (live : List PageId) (run : List (PageId × FreePage)),
      (∀ id, id ∈ live ↔ id < FIRST_DATA_PAGE ∨ id ∈ shared.pager.view.forestPages db.roots)
      ∧ (∀ id ∈ shared.pager.view.forestPages db.roots, shared.pager.view.Checked id)
      ∧ FreeRun shared.pager.page db.state.freeListRootPageId run 0
      ∧ (∀ e ∈ run.flatMap (fun e => e.2.entries), e.2 ∉ live)
      ∧ ((run.flatMap fun e => e.2.entries).map Prod.snd).Nodup
      ∧ ∀ id, FIRST_DATA_PAGE ≤ id → id < db.state.nextPageId →
        id ∈ live ∨ id ∈ run.map Prod.fst
          ∨ id ∈ (run.flatMap fun e => e.2.entries).map Prod.snd := by
  unfold DeepWalkReport.isClean at hclean
  simp only [Bool.and_eq_true, List.isEmpty_iff] at hclean
  obtain ⟨⟨⟨⟨hissues, -⟩, -⟩, horphans⟩, -⟩ := hclean
  unfold runDeepWalk at h
  obtain ⟨⟨live, walkIssues⟩, s₁, hcollect, h⟩ := bind_eq_ok.mp h
  obtain ⟨⟨stale, verdict, error⟩, s₂, hstale, h⟩ := bind_eq_ok.mp h
  obtain ⟨⟨live', chainIssues⟩, s₃, hchain, h⟩ := bind_eq_ok.mp h
  dsimp only at h
  split_ifs at h with hopens
  · obtain ⟨hgrows, hsame⟩ := walkSegments_grows h
    rw [hissues] at hgrows
    rw [horphans] at hsame
    have hnone := List.prefix_nil.mp hgrows
    obtain ⟨hnone, hpages⟩ := List.append_eq_nil_iff.mp hnone
    obtain ⟨hnone, hchainIssues⟩ := List.append_eq_nil_iff.mp hnone
    obtain ⟨hwalkIssues, -⟩ := List.append_eq_nil_iff.mp hnone
    rw [hwalkIssues] at hcollect
    rw [hchainIssues] at hchain
    obtain ⟨hview₁, hlive, hchecked⟩ := collectReachablePages_clean hcollect
    have hview₂ := reportStaleHistoryRows_view hstale
    obtain ⟨run, hrun, hlive', hentries, hnodup⟩ := walkFreeList_clean hchain
    have hpage : s₂.pager.page = shared.pager.page := hview₂.trans hview₁
    rw [hpage] at hrun
    refine ⟨live, run, hlive, hchecked, hrun, fun e he => (hentries e he).2, hnodup,
      fun id hlow hnext => (hlive' id).mp ?_⟩
    have hid : id ∈ db.pageIds := by
      unfold pageIds
      rw [List.mem_range'_1]
      unfold PageId at *
      omega
    refine examinePage_clean hmode (Prod.ext ?_ ?_)
    · refine List.flatMap_eq_nil_iff.mp hpages _ (List.mem_map_of_mem hid)
    · exact List.flatMap_eq_nil_iff.mp hsame.symm _ (List.mem_map_of_mem hid)
  · cases h
    exact absurd hissues (List.append_ne_nil_of_right_ne_nil _ (by simp))

end DeepWalkHandle

/-! ## §4. Partitions -/

/-- The links of a page to node pages; a chain that several leaves share is no node. -/
def PageView.nodeLinks (view : PageView) (id : PageId) : List PageId :=
  (view.links id).filter fun z => (view z).bind Page.role? = some .node

theorem PageView.mem_nodeLinks {view : PageView} {x z : PageId} :
    z ∈ view.nodeLinks x ↔ z ∈ view.links x ∧ (view z).bind Page.role? = some .node := by
  unfold PageView.nodeLinks
  rw [List.mem_filter, decide_eq_true_iff]

theorem PageView.finite_nodeLinks {view : PageView} {roots : List PageId}
    (hfin : (view.forestPages roots).Finite) :
    (linksFrom view.nodeLinks (view.forestPages roots)).Finite := by
  refine (hfin.prod hfin).subset ?_
  rintro ⟨x, z⟩ ⟨⟨root, hroot, hne, hx⟩, hz⟩
  exact ⟨⟨root, hroot, hne, hx⟩, root, hroot, hne, hx.tail (PageView.mem_nodeLinks.mp hz).1⟩

namespace DeepWalkHandle

/-- What may own a page: the three trees, the entries of the free list, and its
    chain. -/
def owners (db : DeepWalkHandle) (view : PageView) (run : List (PageId × FreePage)) :
    List (Set PageId) :=
  db.roots.map view.treePages
    ++ [{ id | id ∈ (run.flatMap fun e => e.2.entries).map Prod.snd }, { id | id ∈ run.map Prod.fst }]

/-- The counts of a store add up: owner by owner no page is counted twice, and the
    trees hold as many references to node pages as there are nodes referred to. -/
def Tallies (db : DeepWalkHandle) (view : PageView) (run : List (PageId × FreePage)) : Prop :=
  ((db.owners view run).map Set.ncard).sum = (unionOf (db.owners view run)).ncard
    ∧ (linksFrom view.nodeLinks (view.forestPages db.roots)).ncard
      = (Prod.snd '' linksFrom view.nodeLinks (view.forestPages db.roots)).ncard

/-- A store of the given pages, all of them authentic on disk. -/
def ofPages (root catalogRoot freeListRoot next : PageId) : DeepWalkHandle where
  opts :=
    { pageSize := 4096
      pageSize_mem := by decide
      commitHistoryRetain := .disabled }
  handle := freshHandle
  state :=
    { rootPageId := root
      nextPageId := next
      latestCommitId := 2
      catalogRootPageId := catalogRoot
      catalogRootTxnId := 2
      freeListRootPageId := freeListRoot
      freeListEntries := none
      commitHistoryRootPageId := 0
      commitHistoryRootVersion := 0
      commitHistoryCount := none
      commitRetainPolicyTag := 0
      commitRetainPolicyValue := 0 }
  file := ⟨[], []⟩
  opens := true
  raw := fun _ => .authentic
  checkSegment := fun _ => none

/-- The shared pages over a file. -/
def overFile (disk : List (PageId × Page)) : SharedPages where
  pager := { disk, dirty := [], written := [], faults := [] }
  cache := []
  consumed := []

/-- The only page of a chain. -/
def lonePage (entries : List (CommitId × PageId)) : FreePage where
  next := 0
  entries
  suffixEntries := entries.length
  suffixMaxCid := 1
  suffixMinCid := 1

/-- The data tree and the catalog tree share leaf 6, and the chain names its own
    page 7 as free. -/
def sharingPages : SharedPages :=
  overFile [(4, .internal { leftmostChild := 6, entries := [] }),
    (5, .internal { leftmostChild := 6, entries := [] }), (6, .leaf Leaf.new),
    (7, .free (lonePage [(1, 7)]))]

theorem walkTree_listed {db : DeepWalkHandle} {shared shared' : SharedPages} {name : WalkedTree}
    {root : PageId} (hroot : root ≠ 0) {ids : List PageId} {tree' : BTree}
    (h : onTree (db.tree root) collectAllPageIds shared = .ok (ids, tree') shared')
    (acc : List PageId × List PageIssue) :
    db.walkTree name root acc shared = .ok (acc.1 ++ ids, acc.2) shared' := by
  have hattempt : attempt (onTree (db.tree root) collectAllPageIds) shared
      = .ok (.ok (ids, tree')) shared' := by
    unfold attempt
    rw [h]
  unfold walkTree
  rw [if_neg hroot, bind_of_ok hattempt]
  rfl

/-- Both trees of the store list page 6. -/
theorem sharingPages_listed :
    (ofPages 4 5 7 8).collectReachablePages sharingPages
      = .ok (List.range FIRST_DATA_PAGE ++ [4, 6] ++ [5, 6], []) sharingPages := by
  have hsort : ∀ x < 6, [6, x].mergeSort (fun a b => decide (a ≤ b)) = [x, 6] := by
    intro x hx
    simp [List.mergeSort, List.MergeSort.Internal.splitInTwo, Nat.not_le.mpr hx]
  have hdata : onTree ((ofPages 4 5 7 8).tree 4) collectAllPageIds sharingPages
      = .ok ([4, 6], (ofPages 4 5 7 8).tree 4) sharingPages := by
    show EStateM.Result.ok ([6, 4].mergeSort (fun a b => decide (a ≤ b)), _) _ = _
    rw [hsort 4 (by decide)]
  have hcatalog : onTree ((ofPages 4 5 7 8).tree 5) collectAllPageIds sharingPages
      = .ok ([5, 6], (ofPages 4 5 7 8).tree 5) sharingPages := by
    show EStateM.Result.ok ([6, 5].mergeSort (fun a b => decide (a ≤ b)), _) _ = _
    rw [hsort 5 (by decide)]
  unfold collectReachablePages
  exact (bind_of_ok (walkTree_listed (by decide) hdata _)).trans
    (bind_of_ok (walkTree_listed (by decide) hcatalog _))

/-- Two leaves under one root share the chain of a long value, counted twice; the
    free list names page 9. -/
def tidyPages : SharedPages :=
  overFile [(4, .internal { leftmostChild := 6, entries := [([9], 8)] }),
    (5, .leaf Leaf.new),
    (6, .leaf { Leaf.new with records := [([1], .overflow 3 10)] }),
    (7, .free (lonePage [(1, 9)])),
    (8, .leaf { Leaf.new with records := [([9], .overflow 3 10)] }),
    (9, .leaf Leaf.new),
    (10, .overflowRoot 2 0 [1, 2, 3])]

/-- The trees of the store list the chain once. -/
theorem tidyPages_listed :
    (ofPages 4 5 7 11).collectReachablePages tidyPages
      = .ok (List.range FIRST_DATA_PAGE ++ [4, 6, 8, 10] ++ [5], []) tidyPages := by
  have hdata : onTree ((ofPages 4 5 7 11).tree 4) collectAllPageIds tidyPages
      = .ok ([4, 6, 8, 10], (ofPages 4 5 7 11).tree 4) tidyPages := by
    have hsort : [6, 10, 8, 4].mergeSort (fun a b => decide (a ≤ b)) = [4, 6, 8, 10] := by
      simp [List.mergeSort, List.MergeSort.Internal.splitInTwo]
    show EStateM.Result.ok ([6, 10, 8, 4].mergeSort (fun a b => decide (a ≤ b)), _) _ = _
    rw [hsort]
  have hcatalog : onTree ((ofPages 4 5 7 11).tree 5) collectAllPageIds tidyPages
      = .ok ([5], (ofPages 4 5 7 11).tree 5) tidyPages := by
    show EStateM.Result.ok ([5].mergeSort (fun a b => decide (a ≤ b)), _) _ = _
    rw [List.mergeSort_singleton]
  unfold collectReachablePages
  exact (bind_of_ok (walkTree_listed (by decide) hdata _)).trans
    (bind_of_ok (walkTree_listed (by decide) hcatalog _))

end DeepWalkHandle

end Pagedb
