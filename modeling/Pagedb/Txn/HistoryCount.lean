/-
  Pagedb.Txn.HistoryCount — `Count(n)` retention over the life of a store.

  The history tree appears as the ordered finite map it stores, with the cached
  count of the writer state beside it, through commits, main-file compactions,
  segment repacks, reopens and reader pins.

  Main results:
    * `count_retention_exact` — in every run whose main-file compactions find
      no positive cached count, the cached count is the number of rows and an
      unpinned commit leaves exactly the newest `min n _` rows;
    * `compaction_leaves_stale_count` — a run without that side condition.
-/
import Pagedb.Txn.HistoryPrune

namespace Pagedb

open List

/-! ## §1. The store's history over its life -/

/-- The page ids one commit publishes.  A commit that writes a row leaves a
    history tree, so its root is a real page. -/
structure CommitPages where
  activeRoot : PageId
  catalogRoot : PageId
  freeListRoot : PageId
  freeListEntries : Nat
  nextPageId : PageId
  historyRoot : PageId
  historyRoot_ne : historyRoot ≠ 0

/-- The store as the history index sees it.  `rows` is what the tree at
    `commitHistoryRootPageId` holds.  `sinceReset` records, in order, every row
    written since the tree was last dropped. -/
structure HistoryDb where
  state : WriterState
  rows : HistoryRows
  readers : List CommitId
  sinceReset : List CommitId

inductive HistoryEvent where
  | commit (nowSecs : Nat) (pages : CommitPages)
  | compactMain (newRoot newCatalogRoot newNext : PageId)
  | repackSegment (newCatalogRoot newFreeListRoot newNext : PageId)
  | reopen
  | pin (commit : CommitId)
  | unpin (commit : CommitId)

/-- A candidate commit while it writes history. -/
structure HistoryCandidate where
  pending : PendingWriterState
  rows : HistoryRows
  written : List CommitId

/-- `write_commit_history_entry` over the ordered map. -/
def writeCommitHistoryEntry (policy : RetainPolicy) (minPinned : Option CommitId) (nowSecs : Nat)
    (pages : CommitPages) (commit : CommitId) (row : CommitHistoryMeta) :
    EStateM Empty HistoryCandidate (List PageId) := fun c =>
  match appendAndPrune sortedRows policy minPinned nowSecs commit row
      c.pending.commitHistoryCount c.rows with
  | .ok count rows =>
    .ok [] { c with
      rows
      written := c.written ++ [commit]
      pending := { c.pending with
        commitHistoryRootPageId := pages.historyRoot
        commitHistoryRootVersion := commit
        commitHistoryCount := count
        nextPageId := pages.nextPageId } }
  | .error e _ => e.elim

/-- `drop_commit_history`. -/
def dropCommitHistory : EStateM Empty HistoryCandidate Unit :=
  modify fun c =>
    if c.pending.commitHistoryRootPageId = 0 then c
    else { c with
      rows := []
      written := []
      pending := { c.pending with
        commitHistoryRootPageId := 0
        commitHistoryRootVersion := 0
        commitHistoryCount := some 0 } }

/-- A lookup in the candidate's rows. -/
def historyGet (commit : CommitId) :
    EStateM Empty HistoryCandidate (Option CommitHistoryMeta) := fun c =>
  .ok ((c.rows.find? fun row => row.1 == commit).map Prod.snd) c

/-- The history part of `commit_body`. -/
def commitHistory (policy : RetainPolicy) (db : HistoryDb) (nowSecs : Nat) (pages : CommitPages) :
    EStateM Empty HistoryCandidate (List PageId) := do
  if historyRowsGone policy db.state then dropCommitHistory
  let c ← get
  if policy = .disabled then pure []
  else
    writeCommitHistoryRows (c.pending.commitHistoryRootPageId != 0) db.state
      (db.state.latestCommitId + 1)
      { activeRootPageId := pages.activeRoot
        catalogRootPageId := pages.catalogRoot
        freeListRootPageId := db.state.freeListRootPageId
        nextPageId := pages.nextPageId
        unixSeconds := nowSecs }
      historyGet (writeCommitHistoryEntry policy db.readers.min? nowSecs pages)

/-- The candidate a commit starts from. -/
def HistoryDb.candidate (db : HistoryDb) (pages : CommitPages) : HistoryCandidate where
  pending := { PendingWriterState.capture db.state with nextPageId := pages.nextPageId }
  rows := db.rows
  written := db.sinceReset

/-- What a commit publishes once its header is durable. -/
def HistoryDb.publish (policy : RetainPolicy) (db : HistoryDb) (pages : CommitPages)
    (c : HistoryCandidate) : HistoryDb where
  state := { c.pending.publish db.state with
    rootPageId := pages.activeRoot
    latestCommitId := db.state.latestCommitId + 1
    catalogRootPageId := pages.catalogRoot
    catalogRootTxnId := db.state.latestCommitId + 1
    freeListRootPageId := pages.freeListRoot
    freeListEntries := some pages.freeListEntries
    commitRetainPolicyTag := (encodeRetainPolicy policy).1
    commitRetainPolicyValue := (encodeRetainPolicy policy).2 }
  rows := c.rows
  readers := db.readers
  sinceReset := c.written

/-- `commit_swap`: the history root goes, and its rows with it.  The cached
    count is not among the fields it assigns. -/
def HistoryDb.commitSwap (db : HistoryDb) (newRoot newCatalogRoot newNext : PageId) :
    HistoryDb where
  state := { db.state with
    rootPageId := newRoot
    catalogRootPageId := newCatalogRoot
    catalogRootTxnId := db.state.latestCommitId + 1
    nextPageId := newNext
    latestCommitId := db.state.latestCommitId + 1
    commitHistoryRootPageId := 0
    commitHistoryRootVersion := 0
    freeListRootPageId := 0
    freeListEntries := some 0 }
  rows := []
  readers := db.readers
  sinceReset := []

/-- Whether `compact_now` reaches the main-file repack. -/
def HistoryDb.CompactsMain (db : HistoryDb) : Prop :=
  db.readers = [] ∧ db.state.freeListRootPageId ≠ 0

instance (db : HistoryDb) : Decidable db.CompactsMain := inferInstanceAs (Decidable (_ ∧ _))

/-- One event on a store opened with `policy`. -/
def HistoryDb.step (policy : RetainPolicy) (db : HistoryDb) : HistoryEvent → HistoryDb
  | .commit nowSecs pages =>
    match commitHistory policy db nowSecs pages (db.candidate pages) with
    | .ok _ c => db.publish policy pages c
    | .error e _ => e.elim
  | .compactMain newRoot newCatalogRoot newNext =>
    if db.CompactsMain then db.commitSwap newRoot newCatalogRoot newNext else db
  | .repackSegment newCatalogRoot newFreeListRoot newNext =>
    -- `replace_segment_compact`: a commit id and no row
    { db with state := { db.state with
        catalogRootPageId := newCatalogRoot
        catalogRootTxnId := db.state.latestCommitId + 1
        nextPageId := newNext
        latestCommitId := db.state.latestCommitId + 1
        freeListRootPageId := newFreeListRoot } }
  | .reopen =>
    { db with
      state := { db.state with freeListEntries := none, commitHistoryCount := none }
      readers := [] }
  | .pin commit => { db with readers := commit :: db.readers }
  | .unpin commit => { db with readers := db.readers.erase commit }

/-- A fresh store. -/
def HistoryDb.create (policy : RetainPolicy) : HistoryDb where
  state :=
    { rootPageId := 0, nextPageId := 4, latestCommitId := 0, catalogRootPageId := 0
      catalogRootTxnId := 0, freeListRootPageId := 0, freeListEntries := some 0
      commitHistoryRootPageId := 0, commitHistoryRootVersion := 0
      commitHistoryCount := some 0
      commitRetainPolicyTag := (encodeRetainPolicy policy).1
      commitRetainPolicyValue := (encodeRetainPolicy policy).2 }
  rows := []
  readers := []
  sinceReset := []

/-! ## §2. What one entry keeps -/

/-- The rows against the record of what was written, and the count against the
    rows. -/
structure RowsInv (n : Nat) (latest : CommitId) (rows : HistoryRows) (written : List CommitId)
    (count : Option Nat) : Prop where
  sorted : rows.Sorted
  le_latest : ∀ row ∈ rows, row.1 ≤ latest
  suffix : rows.map Prod.fst <:+ written
  enough : rows.length = written.length ∨ n ≤ rows.length
  counted : count = none ∨ count = some rows.length

/-- The newest `k` of a list written in order. -/
def newest (k : Nat) (written : List CommitId) : List CommitId :=
  written.drop (written.length - k)

section Entry

variable {n : Nat} {latest commit : CommitId} {rows : HistoryRows} {written : List CommitId}
  {count : Option Nat}

variable (h : RowsInv n latest rows written count)

include h

theorem RowsInv.mono (hle : latest ≤ commit) :
    RowsInv n commit rows written count :=
  { h with le_latest := fun row hrow => Nat.le_trans (h.le_latest row hrow) hle }

/-- One entry keeps the rows in step with what was written. -/
theorem RowsInv.entry (row : CommitHistoryMeta)
    (minPinned : Option CommitId) (hlt : ∀ r ∈ rows, r.1 < commit) :
    RowsInv n commit ((rows ++ [(commit, row)]).drop
        (pruneCount n minPinned (rows ++ [(commit, row)]))) (written ++ [commit])
      (some ((rows ++ [(commit, row)]).length
        - pruneCount n minPinned (rows ++ [(commit, row)]))) := by
  have hk : pruneCount n minPinned (rows ++ [(commit, row)])
      ≤ (rows ++ [(commit, row)]).length - n := Nat.min_le_left _ _
  generalize hd : pruneCount n minPinned (rows ++ [(commit, row)]) = k at hk
  have hsorted : HistoryRows.Sorted (rows ++ [(commit, row)]) := h.sorted.concat hlt
  have hle : ∀ r ∈ rows ++ [(commit, row)], r.1 ≤ commit := by
    intro r hr
    rcases mem_append.mp hr with hr | hr
    · exact Nat.le_of_lt (hlt r hr)
    · rw [mem_singleton.mp hr]
  have hsuffix : (rows ++ [(commit, row)]).map Prod.fst <:+ written ++ [commit] := by
    obtain ⟨older, holder⟩ := h.suffix
    refine ⟨older, ?_⟩
    rw [← holder, map_append, append_assoc]
    rfl
  refine ⟨hsorted.drop, fun r hr => hle r (mem_of_mem_drop hr), ?_, ?_, ?_⟩
  · rw [map_drop]
    exact (drop_suffix _ _).trans hsuffix
  · -- a prune leaves at least `n` rows, and no prune leaves them all
    rw [length_drop, length_append] at *
    have := h.enough
    simp only [length_append, length_singleton] at hk ⊢
    omega
  · exact Or.inr (by rw [length_drop])

/-- With no pin the entry leaves the newest `n` rows, or all of them. -/
theorem RowsInv.entry_unpinned (row : CommitHistoryMeta) :
    ((rows ++ [(commit, row)]).drop (pruneCount n none (rows ++ [(commit, row)]))).length
      = min n (written ++ [commit]).length := by
  have hall : unpinnedPrefix none (rows ++ [(commit, row)]) = (rows ++ [(commit, row)]).length := by
    have hfree : ∀ r ∈ rows ++ [(commit, row)], (!rowPinned none r.1) = true := fun _ _ => rfl
    unfold unpinnedPrefix
    rw [takeWhile_eq_self_iff.mpr hfree]
  have hsub : rows.length ≤ written.length := by
    have := h.suffix.length_le
    rwa [length_map] at this
  have := h.enough
  unfold pruneCount
  rw [hall, length_drop]
  simp only [length_append, length_singleton]
  omega

theorem RowsInv.eq_newest :
    rows.map Prod.fst = newest rows.length written := by
  have := suffix_iff_eq_drop.mp h.suffix
  rwa [length_map] at this

omit h

theorem mem_newest_append_singleton {k : Nat} (older : List CommitId) (c : CommitId)
    (hk : 1 ≤ k) : c ∈ newest k (older ++ [c]) := by
  unfold newest
  rw [length_append, length_singleton, drop_append_of_le_length (by omega)]
  exact mem_append_right _ (mem_singleton_self c)

/-- `write_commit_history_entry` under `Count(n)`. -/
theorem writeCommitHistoryEntry_count {c : HistoryCandidate}
    (h : RowsInv n latest c.rows c.written c.pending.commitHistoryCount)
    (minPinned : Option CommitId) (nowSecs : Nat) (pages : CommitPages) (row : CommitHistoryMeta)
    (hlt : ∀ r ∈ c.rows, r.1 < commit) :
    ∃ c', writeCommitHistoryEntry (.count n) minPinned nowSecs pages commit row c = .ok [] c'
      ∧ RowsInv n commit c'.rows c'.written c'.pending.commitHistoryCount
      ∧ c'.written = c.written ++ [commit]
      ∧ (minPinned = none → c'.rows.length = min n c'.written.length) := by
  unfold writeCommitHistoryEntry
  rw [appendAndPrune_count h.sorted hlt h.counted]
  refine ⟨_, rfl, h.entry row minPinned hlt, rfl, ?_⟩
  rintro rfl
  exact h.entry_unpinned row

/-- After the owed row, if any, the rows still reach no further than the commit
    before this one. -/
theorem writeOwedHistoryRow_count {c : HistoryCandidate} (hasTree : Bool) (previous : WriterState)
    (minPinned : Option CommitId) (nowSecs : Nat) (pages : CommitPages)
    (h : RowsInv n previous.latestCommitId c.rows c.written c.pending.commitHistoryCount) :
    ∃ c', writeOwedHistoryRow hasTree previous nowSecs historyGet
          (writeCommitHistoryEntry (.count n) minPinned nowSecs pages) c = .ok [] c'
      ∧ RowsInv n previous.latestCommitId c'.rows c'.written c'.pending.commitHistoryCount := by
  unfold writeOwedHistoryRow
  split_ifs with htree
  · rw [Lib.bind_of_ok (show historyGet previous.latestCommitId c = .ok _ c from rfl)]
    by_cases howed : ((c.rows.find? fun row => row.1 == previous.latestCommitId).map
        Prod.snd).isNone = true
    · -- no row of that id: every row is strictly older
      have hlt : ∀ r ∈ c.rows, r.1 < previous.latestCommitId := by
        intro r hr
        rw [Option.isNone_iff_eq_none, Option.map_eq_none_iff, find?_eq_none] at howed
        have hne : r.1 ≠ previous.latestCommitId := by simpa using howed r hr
        exact Nat.lt_of_le_of_ne (h.le_latest r hr) hne
      rw [if_pos howed]
      obtain ⟨c', hrun, hinv, -, -⟩ :=
        writeCommitHistoryEntry_count h minPinned nowSecs pages _ hlt
      exact ⟨c', hrun, hinv⟩
    · rw [if_neg howed]
      exact ⟨c, rfl, h⟩
  · exact ⟨c, rfl, h⟩

/-- **A commit's history work under `Count(n)`**, including the row it may owe
    the commit before it. -/
theorem commitHistory_count {db : HistoryDb} (nowSecs : Nat) (pages : CommitPages)
    (htag : db.state.commitRetainPolicyTag ≠ RETAIN_POLICY_TAG_DISABLED)
    (h : RowsInv n db.state.latestCommitId db.rows db.sinceReset db.state.commitHistoryCount) :
    ∃ freed c', commitHistory (.count n) db nowSecs pages (db.candidate pages) = .ok freed c'
      ∧ RowsInv n (db.state.latestCommitId + 1) c'.rows c'.written c'.pending.commitHistoryCount
      ∧ (∃ older, c'.written = older ++ [db.state.latestCommitId + 1])
      ∧ (db.readers.min? = none → c'.rows.length = min n c'.written.length) := by
  have hgone : historyRowsGone (.count n) db.state = false := by
    unfold historyRowsGone historyRowsAbandoned
    rw [beq_eq_false_iff_ne.mpr htag]
    rfl
  obtain ⟨c₁, howed, h₁⟩ := writeOwedHistoryRow_count
    ((db.candidate pages).pending.commitHistoryRootPageId != 0) db.state db.readers.min?
    nowSecs pages (c := db.candidate pages) h
  have hlt : ∀ r ∈ c₁.rows, r.1 < db.state.latestCommitId + 1 := fun r hr =>
    Nat.lt_succ_of_le (h₁.le_latest r hr)
  obtain ⟨c₂, hentry, h₂, hwritten, hexact⟩ :=
    writeCommitHistoryEntry_count h₁ db.readers.min? nowSecs pages
      { activeRootPageId := pages.activeRoot
        catalogRootPageId := pages.catalogRoot
        freeListRootPageId := db.state.freeListRootPageId
        nextPageId := pages.nextPageId
        unixSeconds := nowSecs } hlt
  refine ⟨[], c₂, ?_, h₂, ⟨_, hwritten⟩, hexact⟩
  unfold commitHistory
  rw [hgone]
  show writeCommitHistoryRows _ db.state _ _ historyGet _ (db.candidate pages) = _
  unfold writeCommitHistoryRows
  rw [Lib.bind_of_ok howed, Lib.bind_of_ok hentry]
  rfl

end Entry

/-! ## §3. Whole runs -/

/-- What holds of the store between events. -/
structure HistoryDb.Inv (n : Nat) (db : HistoryDb) : Prop where
  rowsInv : RowsInv n db.state.latestCommitId db.rows db.sinceReset db.state.commitHistoryCount
  tag : db.state.commitRetainPolicyTag ≠ RETAIN_POLICY_TAG_DISABLED

/-- The side condition: a main-file compaction that runs finds the cached count
    absent or zero. -/
def CompactsUncounted (db : HistoryDb) : HistoryEvent → Prop
  | .compactMain _ _ _ =>
    db.CompactsMain → db.state.commitHistoryCount = none ∨ db.state.commitHistoryCount = some 0
  | _ => True

section Run

variable {n : Nat} {db : HistoryDb}

theorem HistoryDb.create_inv (n : Nat) : (HistoryDb.create (.count n)).Inv n where
  rowsInv :=
    { sorted := List.Pairwise.nil
      le_latest := nofun
      suffix := suffix_refl _
      enough := Or.inl rfl
      counted := Or.inr rfl }
  tag := by
    show (0 : Nat) ≠ 3
    omega

/-- A commit keeps the invariant, adds its own row to the record, and with no
    reader pinned leaves exactly the newest rows. -/
theorem HistoryDb.Inv.commit (h : db.Inv n) (nowSecs : Nat) (pages : CommitPages) :
    let db' := db.step (.count n) (.commit nowSecs pages)
    db'.Inv n ∧ db'.state.latestCommitId = db.state.latestCommitId + 1
      ∧ (∃ older, db'.sinceReset = older ++ [db.state.latestCommitId + 1])
      ∧ (db.readers = [] → db'.rows.length = min n db'.sinceReset.length) := by
  obtain ⟨freed, c, hrun, hinv, hwritten, hexact⟩ :=
    commitHistory_count nowSecs pages h.tag h.rowsInv
  have hstep : db.step (.count n) (.commit nowSecs pages) = db.publish (.count n) pages c := by
    unfold HistoryDb.step
    simp only [hrun]
  rw [hstep]
  refine ⟨⟨hinv, ?_⟩, rfl, hwritten, ?_⟩
  · show (0 : Nat) ≠ 3
    omega
  · intro hreaders
    exact hexact (by rw [hreaders]; rfl)

theorem HistoryDb.Inv.commitSwap (h : db.Inv n) (newRoot newCatalogRoot newNext : PageId)
    (hcount : db.state.commitHistoryCount = none ∨ db.state.commitHistoryCount = some 0) :
    (db.commitSwap newRoot newCatalogRoot newNext).Inv n where
  rowsInv :=
    { sorted := List.Pairwise.nil
      le_latest := nofun
      suffix := suffix_refl _
      enough := Or.inl rfl
      counted := hcount }
  tag := h.tag

theorem HistoryDb.Inv.step (h : db.Inv n) (e : HistoryEvent) (hsafe : CompactsUncounted db e) :
    (db.step (.count n) e).Inv n := by
  cases e with
  | commit nowSecs pages => exact (h.commit nowSecs pages).1
  | compactMain newRoot newCatalogRoot newNext =>
    unfold HistoryDb.step
    by_cases hc : db.CompactsMain
    · simp only [if_pos hc]
      exact h.commitSwap newRoot newCatalogRoot newNext (hsafe hc)
    · simp only [if_neg hc]
      exact h
  | repackSegment newCatalogRoot newFreeListRoot newNext =>
    exact ⟨h.rowsInv.mono (Nat.le_succ _), h.tag⟩
  | reopen => exact ⟨{ h.rowsInv with counted := Or.inl rfl }, h.tag⟩
  | _ => exact ⟨h.rowsInv, h.tag⟩

end Run

/-- **`Count(n)` retention.**  In every run from a fresh store whose main-file
    compactions find no positive cached count, a cached count is the number of
    rows, and a commit with no reader pinned leaves exactly the newest
    `min n _` of the rows written since the last reset, its own among them. -/
theorem count_retention_exact (n : Nat) (hn : 1 ≤ n) (es : List HistoryEvent)
    (hsafe : Lib.Meets (HistoryDb.step (.count n)) CompactsUncounted
      (HistoryDb.create (.count n)) es) :
    let db := Lib.run (HistoryDb.step (.count n)) (HistoryDb.create (.count n)) es
    (∀ c, db.state.commitHistoryCount = some c → db.rows.length = c)
      ∧ (db.readers = [] → ∀ nowSecs pages,
          let db' := db.step (.count n) (.commit nowSecs pages)
          db'.rows.map Prod.fst = newest (min n db'.sinceReset.length) db'.sinceReset
            ∧ db'.state.latestCommitId ∈ db'.rows.map Prod.fst) := by
  intro db
  have hinv : db.Inv n :=
    Lib.run_invariant_of_meets (I := HistoryDb.Inv n)
      (fun s e (h : s.Inv n) hc => h.step e hc) es _ (HistoryDb.create_inv n) hsafe
  refine ⟨?_, ?_⟩
  · intro c hc
    rcases hinv.rowsInv.counted with hnone | hsome
    · rw [hnone] at hc; cases hc
    · rw [hsome] at hc
      exact Option.some.inj hc
  · intro hreaders nowSecs pages db'
    obtain ⟨hinv', hlatest, ⟨older, holder⟩, hexact⟩ := hinv.commit nowSecs pages
    have hrows : db'.rows.map Prod.fst = newest (min n db'.sinceReset.length) db'.sinceReset := by
      rw [← hexact hreaders]
      exact hinv'.rowsInv.eq_newest
    refine ⟨hrows, ?_⟩
    rw [hrows]
    show (HistoryDb.step _ db _).state.latestCommitId ∈ _
    rw [hlatest, holder]
    refine mem_newest_append_singleton older _ ?_
    rw [length_append, length_singleton]
    omega

/-- Page ids for the runs below. -/
def somePages : CommitPages where
  activeRoot := 4
  catalogRoot := 5
  freeListRoot := 6
  freeListEntries := 1
  nextPageId := 8
  historyRoot := 7
  historyRoot_ne := by decide

/-- The side condition allows a compaction right after a reopen. -/
theorem count_retention_exact_reopened :
    let es := [HistoryEvent.commit 10 somePages, .pin 1, .repackSegment 9 6 10,
      .commit 20 somePages, .reopen, .compactMain 4 5 6]
    let db := Lib.run (HistoryDb.step (.count 2)) (HistoryDb.create (.count 2)) es
    (∀ c, db.state.commitHistoryCount = some c → db.rows.length = c)
      ∧ (db.readers = [] → ∀ nowSecs pages,
          let db' := db.step (.count 2) (.commit nowSecs pages)
          db'.rows.map Prod.fst = newest (min 2 db'.sinceReset.length) db'.sinceReset
            ∧ db'.state.latestCommitId ∈ db'.rows.map Prod.fst) :=
  count_retention_exact 2 (by decide) _
    ⟨trivial, trivial, trivial, trivial, trivial, fun _ => Or.inl rfl, trivial⟩

/-- **The stale count.**  Under `Count(1)`: two commits, a main-file compaction
    and one more commit, with no reader anywhere.  The compaction drops the tree
    and keeps the count, so the last commit prunes the row it has just written,
    and the count still says one. -/
theorem compaction_leaves_stale_count :
    let es := [HistoryEvent.commit 10 somePages, .commit 20 somePages, .compactMain 4 5 6,
      .commit 30 somePages]
    let db := Lib.run (HistoryDb.step (.count 1)) (HistoryDb.create (.count 1)) es
    db.readers = [] ∧ db.state.latestCommitId = 4 ∧ db.sinceReset = [4]
      ∧ db.state.commitHistoryCount = some 1 ∧ db.rows = [] := by
  decide

end Pagedb
