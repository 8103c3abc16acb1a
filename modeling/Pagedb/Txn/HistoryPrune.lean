/-
  Pagedb.Txn.HistoryPrune — the append and the prune over an ordered map.

  `sortedRows` is the ordered finite map a history tree stores.  Over it the
  batched loops of the source have closed forms:

    * `pruneOldestFrom_sorted` — the batched prune deletes exactly the oldest
      `excess` rows, up to the first pinned one;
    * `countHistoryRowsFrom_sorted` — the count loop visits every row once;
    * `appendAndPrune_count` — one history entry under `Count(n)`.
-/
import Pagedb.Txn.History

namespace Pagedb

open List

/-! ## §1. The rows as an ordered map -/

/-- The rows of the index, oldest first. -/
abbrev HistoryRows := List (CommitId × CommitHistoryMeta)

/-- Strictly increasing in the commit id. -/
def HistoryRows.Sorted (rows : HistoryRows) : Prop := rows.Pairwise fun a b => a.1 < b.1

theorem HistoryRows.Sorted.concat {rows : HistoryRows} {row : CommitId × CommitHistoryMeta}
    (h : rows.Sorted) (hlt : ∀ r ∈ rows, r.1 < row.1) : HistoryRows.Sorted (rows ++ [row]) := by
  rw [HistoryRows.Sorted, pairwise_append]
  refine ⟨h, pairwise_singleton _ _, ?_⟩
  intro a ha b hb
  rw [mem_singleton.mp hb]
  exact hlt a ha

/-- Strictly after the cursor. -/
def afterCursor (cursor : Option CommitId) (row : CommitId × CommitHistoryMeta) : Bool :=
  cursor.all (· < row.1)

/-- The ordered map as the tree calls see it.  None of them can fail. -/
def sortedRows : RowStore Empty HistoryRows where
  get commit := do
    let rows ← get
    pure ((rows.find? fun row => row.1 == commit).map Prod.snd)
  put commit row :=
    modify fun rows => rows.filter (·.1 < commit) ++ (commit, row) :: rows.filter (commit < ·.1)
  delete commit := do
    let rows ← get
    set (rows.filter fun row => row.1 != commit)
    pure (rows.any fun row => row.1 == commit)
  collectBatchFrom cursor limit := do
    let rows ← get
    pure ((rows.filter (afterCursor cursor)).take limit)

/-! ## §2. Closed forms of the loops -/

section Prune

variable {rows : HistoryRows}

theorem sortedRows_collect {cursor : Option CommitId} {limit : Nat}
    (h : ∀ row ∈ rows, afterCursor cursor row = true) :
    sortedRows.collectBatchFrom cursor limit rows = .ok (rows.take limit) rows := by
  show EStateM.Result.ok ((rows.filter (afterCursor cursor)).take limit) rows = _
  rw [filter_eq_self.mpr h]

variable {row : CommitId × CommitHistoryMeta} {minPinned : Option CommitId}

theorem sortedRows_delete_head (h : HistoryRows.Sorted (row :: rows)) :
    sortedRows.delete row.1 (row :: rows) = .ok true rows := by
  have hne : ∀ r ∈ rows, (r.1 != row.1) = true := by
    intro r hr
    have hlt := (pairwise_cons.mp h).1 r hr
    simp only [bne_iff_ne, ne_eq]
    exact Nat.ne_of_gt hlt
  show EStateM.Result.ok _ _ = _
  rw [filter_cons_of_neg (by simp), filter_eq_self.mpr hne]
  simp

/-- How many rows come before the first pinned one. -/
def unpinnedPrefix (minPinned : Option CommitId) (rows : HistoryRows) : Nat :=
  (rows.takeWhile fun row => !rowPinned minPinned row.1).length

theorem unpinnedPrefix_cons_pinned (h : rowPinned minPinned row.1 = true) :
    unpinnedPrefix minPinned (row :: rows) = 0 := by
  unfold unpinnedPrefix
  rw [takeWhile_cons, h]
  rfl

theorem unpinnedPrefix_cons_free (h : rowPinned minPinned row.1 = false) :
    unpinnedPrefix minPinned (row :: rows) = unpinnedPrefix minPinned rows + 1 := by
  unfold unpinnedPrefix
  rw [takeWhile_cons, h]
  rfl

/-- Cutting the rows at `k`: either a pinned row stops the count inside the cut,
    or the count runs on into the rest. -/
theorem unpinnedPrefix_cut (minPinned : Option CommitId) (rows : HistoryRows) (k : Nat) :
    (unpinnedPrefix minPinned (rows.take k) < (rows.take k).length
        ∧ unpinnedPrefix minPinned rows = unpinnedPrefix minPinned (rows.take k))
    ∨ (unpinnedPrefix minPinned (rows.take k) = (rows.take k).length ∧ unpinnedPrefix minPinned rows
          = (rows.take k).length + unpinnedPrefix minPinned (rows.drop k)) := by
  induction rows generalizing k with
  | nil => right; simp [unpinnedPrefix]
  | cons row rows ih =>
    cases k with
    | zero => right; simp [unpinnedPrefix]
    | succ k =>
      rw [take_succ_cons, drop_succ_cons, length_cons]
      cases hp : rowPinned minPinned row.1 with
      | true =>
        left
        rw [unpinnedPrefix_cons_pinned hp, unpinnedPrefix_cons_pinned hp]
        exact ⟨Nat.succ_pos _, rfl⟩
      | false =>
        rw [unpinnedPrefix_cons_free hp, unpinnedPrefix_cons_free hp]
        rcases ih k with ⟨hlt, heq⟩ | ⟨hfull, heq⟩
        · left; omega
        · right; omega

/-- One batch of the prune: it deletes the batch's unpinned prefix, and returns
    from inside exactly when it met a pinned row. -/
theorem pruneBatch_sorted (excess : Nat) (minPinned : Option CommitId) :
    ∀ (batch rest : HistoryRows) (deleted : Nat),
      HistoryRows.Sorted (batch ++ rest) → deleted + batch.length ≤ excess →
      pruneBatch sortedRows excess minPinned batch deleted (batch ++ rest)
        = .ok (deleted + unpinnedPrefix minPinned batch,
            decide (unpinnedPrefix minPinned batch < batch.length))
          ((batch ++ rest).drop (unpinnedPrefix minPinned batch))
  | [], rest, deleted, _, _ => rfl
  | row :: batch, rest, deleted, hs, hd => by
    rw [length_cons] at hd
    have hge : ¬ deleted ≥ excess := by omega
    cases hp : rowPinned minPinned row.1 with
    | true =>
      rw [unpinnedPrefix_cons_pinned hp, pruneBatch, if_neg hge, if_pos hp]
      rfl
    | false =>
      have hs' : HistoryRows.Sorted (batch ++ rest) := (pairwise_cons.mp hs).2
      have hdel : sortedRows.delete row.1 (row :: batch ++ rest) = .ok true (batch ++ rest) :=
        sortedRows_delete_head hs
      have ih := pruneBatch_sorted excess minPinned batch rest (deleted + 1) hs' (by omega)
      rw [unpinnedPrefix_cons_free hp, pruneBatch, if_neg hge, if_neg (by simp [hp]),
        Lib.bind_of_ok hdel, if_pos rfl, ih]
      simp only [cons_append, drop_succ_cons, length_cons,
        Nat.add_lt_add_iff_right, Nat.add_assoc, Nat.add_comm 1]

/-- **The batched prune.**  With enough turns it deletes the oldest
    `excess - deleted` rows, or all rows before the first pinned one. -/
theorem pruneOldestFrom_sorted (excess : Nat) (minPinned : Option CommitId) :
    ∀ (turns : Nat) (rows : HistoryRows) (cursor : Option CommitId) (deleted : Nat),
      HistoryRows.Sorted rows → (∀ row ∈ rows, afterCursor cursor row = true) →
      rows.length < turns →
      pruneOldestFrom sortedRows excess minPinned turns cursor deleted rows
        = .ok (deleted + min (excess - deleted) (unpinnedPrefix minPinned rows))
          (rows.drop (min (excess - deleted) (unpinnedPrefix minPinned rows)))
  | 0, rows, _, _, _, _, ht => absurd ht (Nat.not_lt_zero _)
  | turns + 1, rows, cursor, deleted, hs, hc, ht => by
    rw [pruneOldestFrom]
    by_cases hlt : deleted < excess
    · rw [if_pos hlt, Lib.bind_of_ok (sortedRows_collect hc)]
      have hwant : 0 < min (excess - deleted) HISTORY_PRUNE_BATCH := by
        unfold HISTORY_PRUNE_BATCH; omega
      generalize hw : min (excess - deleted) HISTORY_PRUNE_BATCH = want at hwant
      have hwle : want ≤ excess - deleted := by omega
      have htake : (rows.take want).length = min want rows.length := length_take
      cases hlast : (rows.take want).getLast? with
      | none =>
        -- an empty batch: no row is left
        rw [getLast?_eq_none_iff, take_eq_nil_iff] at hlast
        obtain rfl : rows = [] := hlast.resolve_left (by omega)
        simp only [unpinnedPrefix, takeWhile_nil, length_nil, Nat.min_zero]
        rfl
      | some last =>
        have hbatch := pruneBatch_sorted excess minPinned (rows.take want) (rows.drop want)
          deleted (by rw [take_append_drop]; exact hs) (by omega)
        rw [take_append_drop] at hbatch
        simp only
        rw [Lib.bind_of_ok hbatch]
        simp only [Bool.or_eq_true, decide_eq_true_eq]
        rcases unpinnedPrefix_cut minPinned rows want with ⟨hstop, hk⟩ | ⟨hfull, hk⟩
        · -- a pinned row inside the batch
          have hkk : min (excess - deleted) (unpinnedPrefix minPinned rows)
              = unpinnedPrefix minPinned (rows.take want) := by omega
          rw [if_pos (Or.inl hstop), hkk]
          rfl
        · rw [hfull]
          by_cases hex : (rows.take want).length < want
          · -- the last batch: every row was unpinned and is gone
            have hrest : unpinnedPrefix minPinned (rows.drop want) = 0 := by
              rw [drop_eq_nil_of_le (by omega)]
              rfl
            have hkk : min (excess - deleted) (unpinnedPrefix minPinned rows)
                = (rows.take want).length := by omega
            rw [if_pos (Or.inr hex), hkk]
            rfl
          · -- a full batch went; the rest starts strictly after its last row
            have hlen : (rows.take want).length = want := by omega
            have hs' : HistoryRows.Sorted (rows.drop want) := List.Pairwise.drop hs
            have hc' : ∀ row ∈ rows.drop want, afterCursor (some last.1) row = true := by
              intro row hrow
              have hpair : (rows.take want ++ rows.drop want).Pairwise fun a b => a.1 < b.1 := by
                rw [take_append_drop]; exact hs
              have := (pairwise_append.mp hpair).2.2 last (mem_of_getLast? hlast) row hrow
              simpa [afterCursor] using this
            have hturns : (rows.drop want).length < turns := by
              rw [length_drop]; omega
            have hkk : min (excess - deleted) (unpinnedPrefix minPinned rows)
                = want + min (excess - (deleted + want))
                    (unpinnedPrefix minPinned (rows.drop want)) := by omega
            rw [if_neg (by omega), hlen,
              pruneOldestFrom_sorted excess minPinned turns (rows.drop want) (some last.1)
                (deleted + want) hs' hc' hturns, drop_drop, hkk, Nat.add_assoc]
    · have hk : min (excess - deleted) (unpinnedPrefix minPinned rows) = 0 := by omega
      rw [if_neg hlt, hk]
      rfl

/-- Moving the cursor to the last row of a batch leaves what came after it. -/
theorem filter_after_last {all batch rest : HistoryRows} {cursor : Option CommitId}
    {last : CommitId × CommitHistoryMeta} (hc : all.filter (afterCursor cursor) = batch ++ rest)
    (hlast : batch.getLast? = some last)
    (hpair : (batch ++ rest).Pairwise fun a b => a.1 < b.1) :
    all.filter (afterCursor (some last.1)) = rest := by
  obtain ⟨init, rfl⟩ := getLast?_eq_some_iff.mp hlast
  have hlt : ∀ row, afterCursor (some last.1) row = decide (last.1 < row.1) := fun _ => rfl
  -- whatever lies after `last` lies after the old cursor
  have hsub : ∀ row, afterCursor (some last.1) row = true → afterCursor cursor row = true := by
    intro row hrow
    have hmem : last ∈ all.filter (afterCursor cursor) := by rw [hc]; simp
    have hl := (mem_filter.mp hmem).2
    cases cursor with
    | none => rfl
    | some c =>
      simp only [afterCursor, Option.all_some, decide_eq_true_eq] at hl hrow ⊢
      exact Nat.lt_trans hl hrow
  have hfilter : all.filter (afterCursor (some last.1))
      = (all.filter (afterCursor cursor)).filter (afterCursor (some last.1)) := by
    rw [filter_filter]
    refine filter_congr fun row _ => ?_
    cases h : afterCursor (some last.1) row with
    | false => rfl
    | true => rw [hsub row h]; rfl
  have hbatch : (init ++ [last]).filter (afterCursor (some last.1)) = [] := by
    rw [filter_eq_nil_iff]
    intro row hrow
    rw [hlt, decide_eq_true_eq]
    have hinit := (pairwise_append.mp (pairwise_append.mp hpair).1).2.2
    rcases mem_append.mp hrow with h | h
    · exact Nat.not_lt.mpr (Nat.le_of_lt (hinit row h last (by simp)))
    · rw [mem_singleton.mp h]; exact Nat.lt_irrefl _
  have hrest : rest.filter (afterCursor (some last.1)) = rest := by
    rw [filter_eq_self]
    intro row hrow
    rw [hlt, decide_eq_true_eq]
    exact (pairwise_append.mp hpair).2.2 last (by simp) row hrow
  rw [hfilter, hc, filter_append, hbatch, hrest, nil_append]

/-- The count loop visits every row once. -/
theorem countHistoryRowsFrom_sorted :
    ∀ (turns : Nat) (rows all : HistoryRows) (cursor : Option CommitId) (total : Nat),
      HistoryRows.Sorted rows → all.filter (afterCursor cursor) = rows → rows.length < turns →
      countHistoryRowsFrom sortedRows turns cursor total all = .ok (total + rows.length) all
  | 0, rows, _, _, _, _, _, ht => absurd ht (Nat.not_lt_zero _)
  | turns + 1, rows, all, cursor, total, hs, hc, ht => by
    have hcollect : sortedRows.collectBatchFrom cursor HISTORY_PRUNE_BATCH all
        = .ok (rows.take HISTORY_PRUNE_BATCH) all := by
      rw [← hc]; rfl
    have htake : (rows.take HISTORY_PRUNE_BATCH).length = min HISTORY_PRUNE_BATCH rows.length :=
      length_take
    rw [countHistoryRowsFrom, Lib.bind_of_ok hcollect]
    cases hlast : (rows.take HISTORY_PRUNE_BATCH).getLast? with
    | none =>
      rw [getLast?_eq_none_iff, take_eq_nil_iff] at hlast
      obtain rfl : rows = [] := hlast.resolve_left (by decide)
      rfl
    | some last =>
      simp only
      by_cases hex : (rows.take HISTORY_PRUNE_BATCH).length < HISTORY_PRUNE_BATCH
      · have hall : (rows.take HISTORY_PRUNE_BATCH).length = rows.length := by omega
        rw [if_pos hex, hall]
        rfl
      · -- the rows after the batch are those the next cursor selects
        have hpair : (rows.take HISTORY_PRUNE_BATCH ++ rows.drop HISTORY_PRUNE_BATCH).Pairwise
            fun a b => a.1 < b.1 := by
          rw [take_append_drop]; exact hs
        have hcursor : all.filter (afterCursor (some last.1)) = rows.drop HISTORY_PRUNE_BATCH :=
          filter_after_last (by rw [take_append_drop]; exact hc) hlast hpair
        have hturns : (rows.drop HISTORY_PRUNE_BATCH).length < turns := by
          rw [length_drop]
          unfold HISTORY_PRUNE_BATCH at *
          omega
        have hlen : (rows.take HISTORY_PRUNE_BATCH).length
            + (rows.drop HISTORY_PRUNE_BATCH).length = rows.length := by
          rw [← length_append, take_append_drop]
        rw [if_neg hex, countHistoryRowsFrom_sorted turns (rows.drop HISTORY_PRUNE_BATCH) all
          (some last.1) _ (List.Pairwise.drop hs) hcursor hturns, ← hlen, Nat.add_assoc]

theorem length_le_of_sorted {c : CommitId} (hs : HistoryRows.Sorted rows)
    (hlt : ∀ row ∈ rows, row.1 < c) : rows.length ≤ c := by
  have hnodup : (rows.map Prod.fst).Nodup := by
    rw [List.Nodup, pairwise_map]
    exact hs.imp fun h => Nat.ne_of_lt h
  have hsub : rows.map Prod.fst ⊆ List.range c := by
    intro a ha
    obtain ⟨row, hrow, rfl⟩ := mem_map.mp ha
    exact mem_range.mpr (hlt row hrow)
  have := (subperm_of_subset hnodup hsub).length_le
  rwa [length_map, length_range] at this

/-- How many rows `Count(n)` deletes once `rows` holds the new one. -/
def pruneCount (n : Nat) (minPinned : Option CommitId) (rows : HistoryRows) : Nat :=
  min (rows.length - n) (unpinnedPrefix minPinned rows)

/-- **One history entry under `Count(n)`.**  With a cached count that is absent
    or right, the new row goes to the end, the oldest unpinned rows over `n` go
    from the front, and the returned count is the number of rows left. -/
theorem appendAndPrune_count {n now : Nat} {newCommitId : CommitId} {row : CommitHistoryMeta}
    {cached : Option Nat} (hs : HistoryRows.Sorted rows) (hlt : ∀ r ∈ rows, r.1 < newCommitId)
    (hcached : cached = none ∨ cached = some rows.length) :
    appendAndPrune sortedRows (.count n) minPinned now newCommitId row cached rows
      = .ok (some ((rows ++ [(newCommitId, row)]).length
            - pruneCount n minPinned (rows ++ [(newCommitId, row)])))
          ((rows ++ [(newCommitId, row)]).drop
            (pruneCount n minPinned (rows ++ [(newCommitId, row)]))) := by
  have hget : sortedRows.get newCommitId rows = .ok none rows := by
    have hnone : rows.find? (fun r => r.1 == newCommitId) = none := by
      rw [find?_eq_none]
      intro r hr
      simpa using Nat.ne_of_lt (hlt r hr)
    show EStateM.Result.ok (Option.map _ (rows.find? _)) rows = _
    rw [hnone]
    rfl
  have hput : sortedRows.put newCommitId row rows = .ok () (rows ++ [(newCommitId, row)]) := by
    have hbelow : rows.filter (·.1 < newCommitId) = rows := by
      rw [filter_eq_self]
      intro r hr
      simpa using hlt r hr
    have habove : rows.filter (newCommitId < ·.1) = [] := by
      rw [filter_eq_nil_iff]
      intro r hr
      simpa using Nat.le_of_lt (hlt r hr)
    show EStateM.Result.ok _ (rows.filter _ ++ (newCommitId, row) :: rows.filter _) = _
    rw [hbelow, habove]
  have hlen := length_le_of_sorted hs hlt
  have hlen' : (rows ++ [(newCommitId, row)]).length = rows.length + 1 := by simp
  have hs' : HistoryRows.Sorted (rows ++ [(newCommitId, row)]) := hs.concat hlt
  generalize rows ++ [(newCommitId, row)] = all at hput hlen' hs' ⊢
  -- the walk and the cached count agree on the total
  have htotal : totalAfterPut sortedRows newCommitId true cached all = .ok all.length all := by
    rcases hcached with rfl | rfl
    · have hfilter : all.filter (afterCursor none) = all := filter_eq_self.mpr fun _ _ => rfl
      have := countHistoryRowsFrom_sorted (newCommitId + 2) all all none 0 hs' hfilter (by omega)
      rwa [Nat.zero_add] at this
    · rw [hlen']
      rfl
  have hprune : pruneExcess sortedRows newCommitId (all.length - n) minPinned all
      = .ok (pruneCount n minPinned all) (all.drop (pruneCount n minPinned all)) := by
    unfold pruneExcess pruneCount
    by_cases hex : all.length - n = 0
    · rw [if_pos hex, hex, Nat.zero_min]
      rfl
    · have := pruneOldestFrom_sorted (all.length - n) minPinned (newCommitId + 2) all none 0
        hs' (fun _ _ => rfl) (by omega)
      rw [Nat.sub_zero, Nat.zero_add] at this
      rw [if_neg hex]
      exact this
  rw [appendAndPrune, Lib.bind_of_ok hget, Lib.bind_of_ok hput]
  show (totalAfterPut sortedRows newCommitId true cached >>= _) all = _
  rw [Lib.bind_of_ok htotal, Lib.bind_of_ok hprune]
  rfl

end Prune

end Pagedb
