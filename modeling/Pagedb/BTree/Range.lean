/-
  Pagedb.BTree.Range — `delete_range` (`btree/tree/write.rs`, `scan.rs`).

  A range is deleted in chunks: collect the first keys of what is left, delete
  them, go on behind the last.  The collecting scan holds the stored link of every
  leaf it goes on from against the parents, and a link that is set has to name the
  next leaf (`Session.Crosses`).  Only the bulk loader sets links.

  Main results:
    * `collectKeysBatchInRange_decides` — one chunk of the range's keys;
    * `treeDeleteRange_decides`         — the whole range, counted.
-/
import Pagedb.BTree.Append
import Pagedb.BTree.Slices

namespace Pagedb

open Lib List

variable {g : Surroundings} {s s' : Session} {retired : List PageId} {i i' : Image} {h H : Nat}
  {t : PageTree H}

/-! ## §1. Links -/

/-- A scan of the keys from `start` on below `stop` gets across these leaves.  It ends
    in a leaf with a key at or past `stop`, and in the one with the last of the `n` keys
    it is to find; the link of any other is unset or names the next leaf. -/
def Session.Crosses (s : Session) (start stop : Bytes) :
    Nat → List (LeafAt PageId Bytes Stored) → Prop
  | _, [] => True
  | n, l :: ls =>
    (∃ r ∈ l.records, stop ≤ r.1) ∨ n ≤ l.records.countP (fun r => atLeast start r.1)
      ∨ (∀ link, s.linkAt l.id = some link → link = 0 ∨ ls.head?.map LeafAt.id = some link)
        ∧ s.Crosses start stop (n - l.records.countP fun r => atLeast start r.1) ls

/-- What a scan gets across depends on the links, and on the keys it stops at or
    takes. -/
theorem Session.crosses_only {start stop : Bytes} {q : Bytes → Bool}
    (hlinks : ∀ p, s'.linkAt p = s.linkAt p) (hq : ∀ k, start ≤ k ∨ stop ≤ k → q k = true)
    (ls : List (LeafAt PageId Bytes Stored)) :
    ∀ n, s'.Crosses start stop n (ls.map (LeafAt.only q)) ↔ s.Crosses start stop n ls := by
  induction ls with
  | nil => exact fun _ => Iff.rfl
  | cons l ls ih =>
    intro n
    have hcount : (l.only q).records.countP (fun r => atLeast start r.1)
        = l.records.countP fun r => atLeast start r.1 := by
      show (l.records.filter fun r => q r.1).countP _ = _
      rw [countP_filter]
      refine countP_congr fun r _ => ?_
      rw [Bool.and_eq_true, and_iff_left_iff_imp, atLeast_iff]
      exact fun hr => hq r.1 (Or.inl hr)
    have hstop : (∃ r ∈ (l.only q).records, stop ≤ r.1) ↔ ∃ r ∈ l.records, stop ≤ r.1 := by
      refine exists_congr fun r => and_congr_left fun hr => ?_
      exact mem_filter.trans (and_iff_left (hq r.1 (Or.inr hr)))
    have hhead : (ls.map (LeafAt.only q)).head?.map LeafAt.id = ls.head?.map LeafAt.id := by
      cases ls <;> rfl
    have hlink : s'.linkAt (l.only q).id = s.linkAt l.id := hlinks l.id
    rw [map_cons]
    unfold Session.Crosses
    rw [hcount, hstop, hhead, hlink, ih]

/-! ## §2. One chunk -/

/-- The scan of `collect_keys_batch_in_range`. -/
def keyScan (start stop : Bytes) (limit : Nat) : LeafScan (List Bytes) :=
  { LeafScan.forward (visitKeys start stop limit) with
    agrees := fun leaf next =>
      decide (leaf.rightSibling = 0 ∨ next.bind List.getLast? = some leaf.rightSibling) }

/-- What it does with a record. -/
def keyLook (start stop : Bytes) (limit : Nat) (out : List Bytes) (r : Bytes × Stored) :
    List Bytes × Bool :=
  if atLeast stop r.1 then (out, true)
  else if atLeast start r.1 then (out ++ [r.1], decide ((out ++ [r.1]).length = limit))
  else (out, false)

theorem keyScan_visits (start stop : Bytes) (limit : Nat) :
    (keyScan start stop limit).Visits .right (keyLook start stop limit) := by
  refine ⟨rfl, fun _ => rfl, fun u out r _ => ?_, fun _ h => by cases h⟩
  show Returns _ (visitKeys start stop limit out (r.1, r.2.leafValue)) u _
  unfold visitKeys keyLook
  simp only [atLeast_iff]
  split
  · exact Returns.pure ⟨rfl, Session.Quiet.refl u⟩
  · split
    · exact Returns.pure ⟨rfl, Session.Quiet.refl u⟩
    · exact Returns.pure ⟨rfl, Session.Quiet.refl u⟩

/-- When a leaf does not end the scan, and how many keys it has found by then. -/
theorem sweep_keyLook {start stop : Bytes} {limit : Nat} (records : List (Bytes × Stored)) :
    ∀ {out : List Bytes}, out.length < limit →
      ((sweep (keyLook start stop limit) records out).2 = false
        ↔ (¬ ∃ r ∈ records, stop ≤ r.1)
          ∧ records.countP (fun r => atLeast start r.1) < limit - out.length)
      ∧ ((sweep (keyLook start stop limit) records out).2 = false →
        (sweep (keyLook start stop limit) records out).1.length
          = out.length + records.countP fun r => atLeast start r.1) := by
  induction records with
  | nil =>
    intro out hroom
    refine ⟨iff_of_true rfl ⟨by simp, ?_⟩, fun _ => rfl⟩
    rw [countP_nil]
    omega
  | cons r records ih =>
    intro out hroom
    have hmem : (∃ x ∈ r :: records, stop ≤ x.1) ↔ stop ≤ r.1 ∨ ∃ x ∈ records, stop ≤ x.1 := by
      simp
    rw [hmem]
    unfold sweep
    have hend : true ≠ false := Bool.false_ne_true.symm
    by_cases hstop : atLeast stop r.1 = true
    · have hlook : keyLook start stop limit out r = (out, true) := if_pos hstop
      rw [hlook]
      exact ⟨iff_of_false hend fun h => h.1 (Or.inl (atLeast_iff.mp hstop)), (absurd · hend)⟩
    · have hnot : ¬ stop ≤ r.1 := fun h => hstop (atLeast_iff.mpr h)
      by_cases hstart : atLeast start r.1 = true
      · have hlook : keyLook start stop limit out r
            = (out ++ [r.1], decide ((out ++ [r.1]).length = limit)) := by
          unfold keyLook
          rw [if_neg hstop, if_pos hstart]
        rw [hlook, countP_cons_of_pos (p := fun r : Bytes × Stored => atLeast start r.1) hstart]
        dsimp only
        rw [length_append, length_singleton]
        by_cases hfull : out.length + 1 = limit
        · rw [if_pos (decide_eq_true hfull)]
          exact ⟨iff_of_false hend fun h => by omega, (absurd · hend)⟩
        · rw [if_neg (by simpa using hfull)]
          have hroom' : (out ++ [r.1]).length < limit := by
            rw [length_append, length_singleton]
            omega
          obtain ⟨hiff, hlen⟩ := ih hroom'
          rw [length_append, length_singleton] at hiff hlen
          refine ⟨hiff.trans ?_, fun h => (hlen h).trans (by omega)⟩
          rw [or_iff_right hnot]
          exact and_congr_right fun _ => by omega
      · have hlook : keyLook start stop limit out r = (out, false) := by
          unfold keyLook
          rw [if_neg hstop, if_neg hstart]
        rw [hlook, countP_cons_of_neg (p := fun r : Bytes × Stored => atLeast start r.1) hstart,
          or_iff_right hnot]
        exact ih hroom

/-- **The scan passes the leaves it can get across.** -/
theorem keyScan_passes {start stop : Bytes} {limit : Nat} (ls : List (LeafAt PageId Bytes Stored)) :
    ∀ {out : List Bytes}, out.length < limit →
      ((keyScan start stop limit).Passes .right (keyLook start stop limit) s ls out
        ↔ s.Crosses start stop (limit - out.length) ls) := by
  induction ls with
  | nil => exact fun _ => Iff.rfl
  | cons l ls ih =>
    intro out hroom
    obtain ⟨hends, hlen⟩ := @sweep_keyLook start stop limit l.records _ hroom
    have hnext : ∀ leaf : Leaf, (keyScan start stop limit).agrees leaf (ls.head?.map LeafAt.path) = true
        ↔ leaf.rightSibling = 0 ∨ ls.head?.map LeafAt.id = some leaf.rightSibling := by
      intro leaf
      refine decide_eq_true_iff.trans (or_congr Iff.rfl ?_)
      cases ls with
      | nil => exact Iff.rfl
      | cons l' ls =>
        show (l'.up ++ [l'.id]).getLast? = _ ↔ _
        rw [getLast?_concat]
        rfl
    have hlinks : (∀ leaf, s.leafAt l.id = some leaf →
          (keyScan start stop limit).agrees leaf (ls.head?.map LeafAt.path) = true)
        ↔ ∀ link, s.linkAt l.id = some link → link = 0 ∨ ls.head?.map LeafAt.id = some link := by
      unfold Session.linkAt
      constructor
      · intro h link hlink
        obtain ⟨leaf, hleaf, rfl⟩ := Option.map_eq_some_iff.mp hlink
        exact (hnext leaf).mp (h leaf hleaf)
      · intro h leaf hleaf
        refine (hnext leaf).mpr (h _ ?_)
        rw [hleaf]
        rfl
    unfold LeafScan.Passes Session.Crosses
    rw [hlinks]
    show ((sweep (keyLook start stop limit) l.records out).2 = false → false = false → _) ↔ _
    by_cases hgoes : (sweep (keyLook start stop limit) l.records out).2 = false
    · obtain ⟨hstop, hfew⟩ := hends.mp hgoes
      have hlen := hlen hgoes
      rw [or_iff_right hstop, or_iff_right (not_le.mpr hfew), Nat.sub_sub, ← hlen,
        ← ih (by omega)]
      exact ⟨fun h => h hgoes rfl, fun h _ _ => h⟩
    · refine iff_of_true (fun h => absurd h hgoes) ?_
      by_contra hnot
      rw [not_or, not_or, not_le] at hnot
      exact hgoes (hends.mpr ⟨hnot.1, hnot.2.1⟩)

/-- **One chunk of the keys of a range**, in order. -/
theorem collectKeysBatchInRange_decides (hr : Readable s i) (start stop : Bytes) {limit : Nat}
    (hlimit : 0 < limit) :
    Decides Session.Clear .leafSiblingMismatch (s.Crosses start stop limit (i.leavesFrom start))
      (collectKeysBatchInRange start stop limit) s fun r s' =>
      r = ((below stop (since start i.records)).take limit).map Prod.fst ∧ s.Quiet s' := by
  unfold collectKeysBatchInRange
  refine Decides.get ?_
  cases i with
  | empty =>
    have hroot : s.rootPageId = 0 := hr.root.symm
    rw [if_pos (Or.inl hroot)]
    exact .of_returns (Returns.pure ⟨by simp [Image.records, Image.items, recordsOf, since, below],
      Session.Quiet.refl s⟩) trivial
  | tree t =>
    rw [if_neg (by
      rintro (h0 | h0)
      · exact hr.root_ne_zero h0
      · exact absurd h0 (Nat.ne_of_gt hlimit))]
    refine (hr.stand .right start).decides ?_
    rintro path u ⟨hq, rest, behind, hstand, hsplits, hbehind, hfrom⟩
    obtain rfl := hfrom rfl
    have hsplit := hsplits.records
    refine ((keyScan_visits start stop limit).walk_decides (hr.quiet hq) hstand).congr ?_ ?_
    · rw [LeafScan.passes_quiet hq, keyScan_passes _ hlimit]
      exact Iff.rfl
    rintro r w ⟨rfl, hq'⟩
    refine ⟨?_, hq.trans hq'⟩
    have hpast : ∀ j k, j < k → atLeast stop j = true → inRange start stop k = false := by
      intro j k hjk hj
      have hle : stop ≤ k := (atLeast_iff.mp hj).trans hjk.le
      rw [Bool.eq_false_iff, Ne, inRange_iff]
      exact fun hin => absurd hle (not_le.mpr hin.1)
    have hslice := records_filter (inRange start stop) hsplit fun x hx => by
      rw [Bool.eq_false_iff, Ne, inRange_iff]
      exact fun hin => absurd hin.2 (not_le.mpr (hbehind x hx))
    have hroom : ([] : List Bytes).length < limit := hlimit
    rw [below_since]
    unfold within
    rw [hslice, sweep_page (f := fun r : Bytes × Stored => r.1)
      (fun r => atLeast stop r.1) (fun r => atLeast start r.1)
      (fun r => inRange start stop r.1) (fun out r => (rfl : keyLook start stop limit out r = _)) ?_
      (haltsPast_of_ascending _ _ hr hsplit hpast) hroom, ← map_take, map_map]
    · rfl
    · intro x
      rw [Bool.eq_iff_iff, inRange_iff]
      simp [and_comm]

/-! ## §3. The chunks of a range -/

/-- The keys of an image from `lo` on below `hi`. -/
def Image.keysIn (i : Image) (lo hi : Bytes) : List Bytes :=
  (below hi (since lo i.records)).map Prod.fst

theorem Image.map_eq_find (i : Image) (k : Bytes) : i.map k = find k i.records := by
  unfold Image.map contents Image.records find
  rw [find?_map, Option.map_map, Option.map_map]
  rfl

theorem Image.mem_keysIn {lo hi k : Bytes} :
    k ∈ i.keysIn lo hi ↔ (lo ≤ k ∧ k < hi) ∧ (i.map k).isSome = true := by
  rw [Image.map_eq_find, find_isSome_iff]
  unfold Image.keysIn
  rw [mem_map]
  constructor
  · rintro ⟨r, hr, rfl⟩
    obtain ⟨hr, hhi⟩ := mem_below.mp hr
    obtain ⟨hr, hlo⟩ := mem_since.mp hr
    exact ⟨⟨hlo, hhi⟩, r, hr, rfl⟩
  · rintro ⟨⟨hlo, hhi⟩, r, hr, rfl⟩
    exact ⟨r, mem_below.mpr ⟨mem_since.mpr ⟨hr, hlo⟩, hhi⟩, rfl⟩

theorem Readable.keysIn_nodup (hr : Readable s i) (lo hi : Bytes) : (i.keysIn lo hi).Nodup := by
  have hasc : Ascending (below hi (since lo i.records)) :=
    List.Pairwise.sublist (filter_sublist.trans filter_sublist) hr.records_ascending
  exact (pairwise_map.mpr hasc).imp fun hlt => ne_of_lt hlt

theorem dropAll_apply (keys : List Bytes) (m : Bytes → Option Bytes) (k : Bytes) :
    dropAll m keys k = if k ∈ keys then none else m k := by
  unfold dropAll
  induction keys generalizing m with
  | nil => rfl
  | cons j keys ih =>
    rw [foldl_cons, ih]
    by_cases hk : k ∈ keys
    · rw [if_pos hk, if_pos (mem_cons_of_mem j hk)]
    · rw [if_neg hk]
      by_cases hj : k = j
      · subst hj
        rw [Function.update_self, if_pos mem_cons_self]
      · rw [Function.update_of_ne hj, if_neg fun h => (mem_cons.mp h).elim hj hk]

theorem Carries.quiet (hs : Carries g s retired i) (hq : s.Quiet s') : Carries g s' retired i := by
  refine ⟨hs.live.quiet hq, fun e he => hq.shows (hs.rep e he), ?_⟩
  obtain ⟨faults, rfl⟩ := hq
  exact hs.root

/-- No key of a chunk lies behind its last one. -/
theorem le_last_of_chunk {lo hi last : Bytes} {n : Nat} (hr : Readable s i)
    (hlast : ((i.keysIn lo hi).take n).getLast? = some last) :
    ∀ k ∈ (i.keysIn lo hi).take n, k ≤ last := by
  intro k hk
  obtain ⟨front, hfront⟩ := getLast?_eq_some_iff.mp hlast
  have hasc : ((i.keysIn lo hi).take n).Pairwise (· < ·) := by
    refine List.Pairwise.take ?_
    unfold Image.keysIn
    rw [pairwise_map]
    exact (hr.records_ascending.since lo).below hi
  rw [hfront] at hasc hk
  rcases mem_append.mp hk with hk | hk
  · exact le_of_lt ((pairwise_append.mp hasc).2.2 k hk _ (mem_singleton_self _))
  · exact le_of_eq (mem_singleton.mp hk)

/-- **What is left behind a deleted chunk.** -/
theorem keysIn_after_chunk {lo hi last : Bytes} {n : Nat} (hr : Readable s i) (hr' : Readable s' i')
    (hlast : ((i.keysIn lo hi).take n).getLast? = some last)
    (hmap : i'.map = dropAll i.map ((i.keysIn lo hi).take n)) :
    i'.keysIn (last ++ [0]) hi = (i.keysIn lo hi).drop n := by
  -- the records of the smaller image
  have hrecords : i'.records
      = i.records.filter fun r => !((i.keysIn lo hi).take n).contains r.1 := by
    refine Ascending.eq_of_find hr'.records_ascending
      (List.Pairwise.filter _ hr.records_ascending) fun k => ?_
    rw [← Image.map_eq_find, hmap, dropAll_apply, Image.map_eq_find]
    split_ifs with hk
    · rw [find_eq_none]
      intro r hr heq
      have := (mem_filter.mp hr).2
      rw [heq] at this
      simp [hk] at this
    · unfold find
      rw [find?_filter]
      congr 2
      funext r
      by_cases hrk : r.1 = k
      · subst hrk
        simp [hk]
      · simp [hrk]
  have hpage : ((since lo (below hi i.records)).take n).getLast?.map Prod.fst = some last := by
    rw [← below_since_comm, ← getLast?_map, map_take]
    exact hlast
  obtain ⟨r, hrlast, rfl⟩ := Option.map_eq_some_iff.mp hpage
  have hnext : ∀ k, r.1 ++ [0] ≤ k ↔ r.1 < k :=
    append_bot_le_iff (fun _ => UInt8.zero_le) r.1
  have hdrop := since_after_page (hr.records_ascending.below hi) hrlast hnext
  have hle := le_last_of_chunk hr hlast
  unfold Image.keysIn
  rw [← map_drop, below_since_comm lo, ← hdrop, ← below_since_comm, hrecords]
  congr 1
  unfold since below
  rw [filter_filter, filter_filter, filter_filter]
  refine filter_congr fun x _ => ?_
  by_cases hx : r.1 ++ [0] ≤ x.1
  · have hnot : ((i.keysIn lo hi).take n).contains x.1 = false := by
      rw [contains_eq_mem, decide_eq_false_iff_not]
      exact fun hmem => absurd ((hnext x.1).mp hx) (not_lt.mpr (hle x.1 hmem))
    rw [hnot, Bool.not_false, Bool.and_true]
  · rw [decide_eq_false hx, Bool.and_false, Bool.false_and]

/-- Where the loop starts a scan: at the start of the range, and behind the last key of
    every full chunk. -/
def Image.Cursor (i : Image) (chunk : Nat) (start stop c : Bytes) : Prop :=
  c = start ∨ ∃ j last, (i.keysIn start stop)[(j + 1) * chunk - 1]? = some last ∧ c = last ++ [0]

/-- Each scan of the loop gets across its leaves, as they are before the call. -/
def Session.RangeLinked (s : Session) (i : Image) (chunk : Nat) (start stop : Bytes) : Prop :=
  ∀ c, i.Cursor chunk start stop c → s.Crosses c stop chunk (i.leavesFrom c)

section Cursors

variable {chunk : Nat} {start stop c : Bytes}

/-- A chunk that is not full is the last. -/
theorem Image.cursor_of_short (hchunk : 0 < chunk) (hshort : (i.keysIn start stop).length < chunk) :
    i.Cursor chunk start stop c ↔ c = start := by
  refine or_iff_left ?_
  rintro ⟨j, last, hlast, -⟩
  obtain ⟨hlt, -⟩ := List.getElem?_eq_some_iff.mp hlast
  rw [Nat.succ_mul] at hlt
  omega

/-- Behind a full chunk the loop goes on as it would from there. -/
theorem Image.cursor_of_full {last : Bytes} (hchunk : 0 < chunk)
    (hlast : (i.keysIn start stop)[chunk - 1]? = some last)
    (hleft : i'.keysIn (last ++ [0]) stop = (i.keysIn start stop).drop chunk) :
    i.Cursor chunk start stop c ↔ c = start ∨ i'.Cursor chunk (last ++ [0]) stop c := by
  have hindex : ∀ j, (j + 1 + 1) * chunk - 1 = chunk + ((j + 1) * chunk - 1) := by
    intro j
    have : 0 < (j + 1) * chunk := Nat.mul_pos (Nat.succ_pos j) hchunk
    rw [Nat.succ_mul (j + 1)]
    omega
  unfold Image.Cursor
  rw [hleft]
  refine or_congr Iff.rfl ⟨?_, ?_⟩
  · rintro ⟨j, a, ha, rfl⟩
    cases j with
    | zero =>
      rw [Nat.zero_add, Nat.one_mul, hlast] at ha
      cases ha
      exact Or.inl rfl
    | succ j =>
      refine Or.inr ⟨j, a, ?_, rfl⟩
      rw [getElem?_drop, ← hindex]
      exact ha
  · rintro (rfl | ⟨j, a, ha, rfl⟩)
    · exact ⟨0, last, by rw [Nat.zero_add, Nat.one_mul]; exact hlast, rfl⟩
    · refine ⟨j + 1, a, ?_, rfl⟩
      rw [hindex, ← getElem?_drop]
      exact ha

theorem Image.Cursor.le (h : i.Cursor chunk start stop c) : start ≤ c := by
  rcases h with rfl | ⟨j, last, hlast, rfl⟩
  · exact le_refl _
  · have hmem := mem_of_getElem? hlast
    exact (Image.mem_keysIn.mp hmem).1.1.trans (prefix_le (prefix_append _ _))

end Cursors

/-- **The loop deletes what is left of the range**, and counts it, if its scans get
    across the leaves. -/
theorem deleteRangeFrom_decides (stop : Bytes) (turns : Nat) :
    ∀ {cursor : Bytes} {removed : Nat} {s : Session} {i : Image}, Carries g s retired i →
      (i.keysIn cursor stop).length < turns →
      Decides Session.Clear .leafSiblingMismatch (s.RangeLinked i DELETE_RANGE_CHUNK cursor stop)
        (deleteRangeFrom stop turns cursor removed) s fun n s' =>
        n = removed + (i.keysIn cursor stop).length ∧ ∃ i', Carries g s' retired i'
          ∧ ∀ k, i'.map k = if k ∈ i.keysIn cursor stop then none else i.map k := by
  have hchunk : 0 < DELETE_RANGE_CHUNK := by decide
  generalize hn : DELETE_RANGE_CHUNK = chunk at hchunk
  induction turns with
  | zero =>
    intro cursor removed s i _ hturns
    exact absurd hturns (Nat.not_lt_zero _)
  | succ turns ih =>
    intro cursor removed s i hs hturns
    unfold deleteRangeFrom
    rw [hn]
    refine (collectKeysBatchInRange_decides hs.readable cursor stop hchunk).bind
      (fun h => h cursor (Or.inl rfl)) ?_
    rintro hcross keys u ⟨hkeys, hq⟩
    rw [map_take] at hkeys
    have hkeys : keys = (i.keysIn cursor stop).take chunk := hkeys
    subst hkeys
    have hlast_scan : (i.keysIn cursor stop).length < chunk → s.RangeLinked i chunk cursor stop := by
      intro hshort c hc
      rw [(Image.cursor_of_short hchunk hshort).mp hc]
      exact hcross
    cases hlast : ((i.keysIn cursor stop).take chunk).getLast? with
    | none =>
      -- nothing is left
      have hnil := eq_nil_of_page hchunk hlast
      refine .of_returns (Returns.pure ⟨?_, i, hs.quiet hq, fun k => ?_⟩) (hlast_scan ?_)
      · rw [hnil]
        rfl
      · rw [hnil, if_neg not_mem_nil]
      · rw [hnil]
        exact hchunk
    | some last =>
      refine (treeDeleteBatch_returns (hs.quiet hq)).decides ?_
      rintro _ w ⟨i₁, h₁, hmap₁, hleaves, hlinks⟩
      split_ifs with hshort
      · -- a short chunk is the last
        rw [length_take] at hshort
        have hall : (i.keysIn cursor stop).take chunk = i.keysIn cursor stop :=
          take_of_length_le (by omega)
        refine .of_returns (Returns.pure ⟨by rw [hall], i₁, h₁, fun k => ?_⟩)
          (hlast_scan (by omega))
        rw [hmap₁, dropAll_apply, hall]
      · have hleft := keysIn_after_chunk hs.readable h₁.readable hlast hmap₁
        have hbound := length_drop_lt hchunk hlast hturns
        rw [← hleft] at hbound
        rw [length_take] at hshort
        have hat : (i.keysIn cursor stop)[chunk - 1]? = some last := by
          rw [getLast?_eq_getElem?, length_take, getElem?_take] at hlast
          rw [Nat.min_eq_left (by omega), if_pos (by omega)] at hlast
          exact hlast
        -- the keys of the chunk lie below what a later scan stops at or takes
        have hlater : ∀ c, i₁.Cursor chunk (last ++ [0]) stop c →
            (w.Crosses c stop chunk (i₁.leavesFrom c) ↔ s.Crosses c stop chunk (i.leavesFrom c)) := by
          intro c hc
          have hnext : ∀ k, last ++ [0] ≤ k ↔ last < k := append_bot_le_iff (fun _ => UInt8.zero_le) last
          have hstop : last < stop := (Image.mem_keysIn.mp (mem_of_getElem? hat)).1.2
          have hlinks' : ∀ p, w.linkAt p = s.linkAt p := fun p => (hlinks p).trans (by
            unfold Session.linkAt
            rw [hq.leafAt])
          have hq' : ∀ k, c ≤ k ∨ stop ≤ k → decide (last < k) = true := fun k hk =>
            decide_eq_true (hk.elim (fun h => (hnext k).mp (hc.le.trans h)) hstop.trans_le)
          have hkept := hleaves (fun k => decide (last < k)) (fun k hk => decide_eq_false
            (not_lt.mpr (le_last_of_chunk hs.readable hlast k hk))) c
          rw [← Session.crosses_only (fun _ => rfl) hq' (i₁.leavesFrom c), hkept,
            Session.crosses_only hlinks' hq']
        refine (ih h₁ hbound).congr ?_ ?_
        · unfold Session.RangeLinked
          constructor
          · intro h c hc
            exact (hlater c hc).mpr (h c ((Image.cursor_of_full hchunk hat hleft).mpr (Or.inr hc)))
          · intro h c hc
            rcases (Image.cursor_of_full hchunk hat hleft).mp hc with rfl | hc
            · exact hcross
            · exact (hlater c hc).mp (h c hc)
        rintro n x ⟨rfl, i', hs', hmap'⟩
        refine ⟨?_, i', hs', fun k => ?_⟩
        · rw [hleft, length_take, length_drop]
          omega
        · rw [hmap', hmap₁, dropAll_apply, hleft]
          have hsplit : k ∈ i.keysIn cursor stop ↔ k ∈ (i.keysIn cursor stop).take chunk
              ∨ k ∈ (i.keysIn cursor stop).drop chunk := by
            rw [← mem_append, take_append_drop]
          by_cases hd : k ∈ (i.keysIn cursor stop).drop chunk
          · rw [if_pos hd, if_pos (hsplit.mpr (Or.inr hd))]
          · rw [if_neg hd]
            by_cases ht : k ∈ (i.keysIn cursor stop).take chunk
            · rw [if_pos ht, if_pos (hsplit.mpr (Or.inl ht))]
            · rw [if_neg ht, if_neg fun h => (hsplit.mp h).elim ht hd]

/-! ## §4. The whole range -/

/-- The number of records at every id, in the pager and in the caches. -/
def Session.recordRows (s : Session) : List (PageId × Nat) :=
  (s.pager.dirty ++ s.pager.disk).map (fun e => (e.1, match e.2 with
      | .leaf leaf => leaf.records.length
      | _ => 0))
    ++ s.freshLeaves.toList.map (fun e => (e.1, e.2.records.length))
    ++ s.dirtyLeaves.toList.map (fun e => (e.1, e.2.records.length))

theorem Session.recordBound_eq (s : Session) : s.recordBound = (s.recordRows.map Prod.snd).sum := by
  unfold Session.recordBound Session.recordRows
  simp only [map_append, map_map, sum_append]
  rfl

theorem Session.mem_recordRows {id : PageId} {records : Records} (hdirty : s.DirtyPaged)
    (hlook : s.look id = some (.inl records)) : (id, records.length) ∈ s.recordRows := by
  unfold Session.recordRows
  rw [mem_append, mem_append]
  cases hf : s.freshLeaves.lookup id with
  | some leaf =>
    rw [Session.look_fresh hf] at hlook
    cases hlook
    exact Or.inl (Or.inr (mem_map.mpr ⟨(id, leaf), Table.mem_toList.mpr hf, rfl⟩))
  | none =>
    cases hd : s.dirtyLeaves.lookup id with
    | some leaf =>
      rw [Session.look_dirty hf hd] at hlook
      cases hlook
      exact Or.inr (mem_map.mpr ⟨(id, leaf), Table.mem_toList.mpr hd, rfl⟩)
    | none =>
      obtain ⟨leaf, hpage, hrec⟩ := Session.page_of_look_leaf hdirty hf hlook
      rw [hd] at hrec
      subst hrec
      obtain ⟨l₁, l₂, hsplit, -⟩ := lookup_eq_some_iff.mp hpage
      refine Or.inl (Or.inl (mem_map.mpr ⟨(id, .leaf leaf), ?_, rfl⟩))
      rw [hsplit]
      exact mem_append_right _ mem_cons_self

/-- The leaves of the tree are found in the caches or in the pager, each once, so
    they hold no more records than those do. -/
theorem Readable.length_le_recordBound (hr : Readable s i) : i.records.length ≤ s.recordBound := by
  cases i with
  | empty => exact Nat.zero_le _
  | tree t =>
    have hrows : t.leaves.map (fun l => (l.id, l.records.length)) ⊆ s.recordRows := by
      intro row hrow
      obtain ⟨l, hl, rfl⟩ := mem_map.mp hrow
      have hlook : s.look l.id = some (.inl (leafRecords l.records)) :=
        hr.rep _ (Node.leaf_cell_mem hl)
      have := Session.mem_recordRows hr.paged hlook
      rwa [leafRecords, length_map] at this
    have hnodup : (t.leaves.map fun l => (l.id, l.records.length)).Nodup := by
      refine List.Nodup.of_map Prod.fst ?_
      rw [map_map]
      exact hr.nodup.sublist (Node.leaves_ids_sublist t)
    obtain ⟨rows, hperm, hsub⟩ := subperm_of_subset hnodup hrows
    obtain ⟨others, hothers⟩ := hsub.exists_perm_append
    have hsum : (t.leaves.map fun l => l.records.length).sum ≤ (s.recordRows.map Prod.snd).sum := by
      calc (t.leaves.map fun l => l.records.length).sum
          = ((t.leaves.map fun l => (l.id, l.records.length)).map Prod.snd).sum := by
            rw [map_map]
            rfl
        _ = (rows.map Prod.snd).sum := (hperm.map Prod.snd).sum_nat.symm
        _ ≤ (s.recordRows.map Prod.snd).sum := by
            rw [(hothers.map Prod.snd).sum_nat, map_append, sum_append]
            exact Nat.le_add_right _ _
    rw [s.recordBound_eq]
    refine le_trans (le_of_eq ?_) hsum
    have hrecords : (Image.tree t).records = (recordsOf t.items).map Stored.record := rfl
    rw [hrecords, length_map, Node.recordsOf_items, length_flatMap]

/-- **`delete_range` deletes exactly the keys of its range**, if its scans get across
    the leaves; otherwise it fails. -/
theorem treeDeleteRange_decides (hs : Carries g s retired i) (start stop : Bytes) :
    Decides Session.Clear .leafSiblingMismatch (s.RangeLinked i DELETE_RANGE_CHUNK start stop)
      (treeDeleteRange start stop) s fun n s' =>
      n = (i.keysIn start stop).length ∧ ∃ i', Carries g s' retired i'
        ∧ ∀ k, i'.map k = if k ∈ i.keysIn start stop then none else i.map k := by
  unfold treeDeleteRange
  refine Decides.get ?_
  split_ifs with hroot
  · obtain rfl := hs.root_eq_zero.mp hroot
    refine .of_returns (Returns.pure ⟨rfl, .empty, hs, fun k => ?_⟩) fun _ _ => trivial
    simp [Image.keysIn, Image.records, Image.items, recordsOf, since, below]
  · have hbound : (i.keysIn start stop).length < s.recordBound + 1 := by
      refine Nat.lt_succ_of_le (le_trans ?_ hs.readable.length_le_recordBound)
      unfold Image.keysIn
      rw [length_map]
      exact (length_filter_le _ _).trans (length_filter_le _ _)
    refine (deleteRangeFrom_decides stop _ hs hbound).congr Iff.rfl ?_
    rintro n s' ⟨rfl, h'⟩
    exact ⟨Nat.zero_add _, h'⟩

end Pagedb
