/-
  Pagedb.BTree.Contracts — what callers of the tree may rely on
  (`btree/tree/write.rs`).

    * `put_append_is_checked_put` — an append is a put that refuses keys out of
      order;
    * `delete_range_is_exact`     — a range is deleted whole, and counted;
    * `batches_equal_single_calls` — a batch does what its calls do one by one;
    * `edge_keys_are_extremes`     — the keys at the edges are the smallest and the
      largest.

  Each holds in every session that calls reach, under the condition its docstring
  names, and each comes with the run that shows why the condition is there.
-/
import Pagedb.BTree.Misplaced

namespace Pagedb

open Lib List

variable {hash : HashOrder} {s s' : Session} {last : Option Bytes}

/-- Calls in order; the run returns if every call does. -/
def runCalls (hash : HashOrder) : List TreeCall → TreeM Unit
  | [] => pure ()
  | c :: calls => do
    c.run hash
    runCalls hash calls

/-- An empty tree over an empty file. -/
def Session.blank : Session :=
  { BTree.open 4096 0 4 none with pager := ⟨[], [], [], []⟩, cache := [], consumed := [] }

/-- A value of which a page takes four. -/
def quarter : Bytes := List.replicate 1000 0

theorem Reached.blank : Reached hash Session.blank none :=
  .opened Session.blank 4 none [] [] ⟨nodup_nil, nofun,
    nofun⟩

/-- A run without appends reaches where it ends. -/
theorem Reached.runCalls (calls : List TreeCall) (hplain : ∀ c ∈ calls, c.appended = none) :
    ∀ {s s' : Session} {u : Unit}, Reached hash s last → Pagedb.runCalls hash calls s = .ok u s' →
      Reached hash s' last := by
  induction calls with
  | nil =>
    intro s s' u h hrun
    obtain ⟨-, rfl⟩ := pure_eq_ok.mp hrun
    exact h
  | cons c calls ih =>
    intro s s' u h hrun
    obtain ⟨_, w, hcall, hrest⟩ := bind_eq_ok.mp hrun
    have hnone := hplain c mem_cons_self
    have hsafe : c.Safe s := by
      cases c with
      | putAppend key value => cases hnone
      | _ => trivial
    have hw := h.called c hsafe hcall
    rw [hnone] at hw
    exact ih (fun c' hc' => hplain c' (mem_cons_of_mem _ hc')) hw hrest

/-! ## §1. `put_append` -/

/-- The key is not above every key of the tree, or not above the last one
    appended. -/
def Session.Blocked (s : Session) (last : Option Bytes) (k : Bytes) : Prop :=
  (∃ j, (s.map j).isSome ∧ k ≤ j) ∨ ∃ a, last = some a ∧ k ≤ a

/-- The append of a record is a checked put: a key that is not above all is refused and
    the session is as it was, and any other key is put as `put` puts it. -/
def Session.AppendsChecked (s : Session) (last : Option Bytes) (k v : Bytes) : Prop :=
  (s.Blocked last k → ∃ e s', treePutAppend k v s = .error e s' ∧ s.Quiet s'
      ∧ (s.Clear → e = .appendNotMonotonic))
    ∧ (¬ s.Blocked last k → (∀ e s', treePutAppend k v s = .error e s' → e ≠ .appendNotMonotonic)
      ∧ (s.Clear → isOk (treePutAppend k v s) = isOk (treePut k v s))
      ∧ ∀ s', treePutAppend k v s = .ok () s' → s'.map = Function.update s.map k (some v)
        ∧ (∀ t, treePut k v s = .ok () t → t.map = s'.map)
        ∧ Returns Session.Clear (treeGet k) s' fun found _ => found = some v)

/-- The key is not above the one it is compared with; or it is above the last one
    appended, and belongs into the leaf if that is empty. -/
def Session.Checked (s : Session) (last : Option Bytes) (k : Bytes) : Prop :=
  (∃ m, s.appendBound = some m ∧ k ≤ m) ∨ s.Places k ∧ ∀ a, last = some a → a < k

/-- **An append is a checked put for the keys that are compared rightly, and for no
    others.**  In a session that calls reach, with a record that fits, where a remembered
    path is not stale for the key (`Session.Trusts`). -/
theorem put_append_is_checked_put (h : Reached hash s last) (k v : Bytes) (htrust : s.Trusts k)
    (hfits : validateInsertRecordFits k v s = .ok () s) :
    (s.Checked last k → s.AppendsChecked last k v)
      ∧ (s.Clear → s.AppendsChecked last k v → s.Checked last k) := by
  obtain ⟨g, retired, i, hs, hlast⟩ := h.kept
  have hread := hs.readable
  have hmap : s.map = i.map := hread.map_eq
  have hpresent : ∀ r ∈ recordsOf i.items, (s.map r.1).isSome := by
    intro r hr
    rw [hmap, Image.map_isSome_iff]
    exact ⟨r, hr, rfl⟩
  by_cases hrefused : ∃ m, s.appendBound = some m ∧ k ≤ m
  · refine ⟨fun _ => ?_, fun _ _ => Or.inl hrefused⟩
    obtain ⟨m, hm, hk⟩ := hrefused
    obtain ⟨r, hr, rfl⟩ := hread.bound_mem hlast hm
    refine ⟨fun _ => ?_, fun hfree => absurd (Or.inl ⟨r.1, hpresent r hr, hk⟩) hfree⟩
    obtain ⟨e, s', herror, hq, he⟩ := treePutAppend_blocked (v := v) hread hlast htrust hm hk
    exact ⟨e, s', herror, hq, fun hclear => he hclear hfits⟩
  have hbound : ∀ m, s.appendBound = some m → m < k := fun m hm =>
    not_le.mp fun hk => hrefused ⟨m, hm, hk⟩
  have hnot : ∀ e s', treePutAppend k v s = .error e s' → e ≠ .appendNotMonotonic :=
    fun e s' herror => treePutAppend_not_refused hread hlast htrust hbound herror
  constructor
  · intro hchecked
    obtain ⟨hplaces, habove⟩ := hchecked.resolve_left hrefused
    have hfree : ¬ s.Blocked last k := by
      rintro (⟨j, hj, hk⟩ | ⟨a, ha, hk⟩)
      · rw [hmap, Image.map_isSome_iff] at hj
        obtain ⟨r, hr, rfl⟩ := hj
        exact hrefused (Places.bound_of_blocked hread hlast hplaces ⟨r, hr, hk⟩)
      · exact absurd (habove a ha) (not_lt.mpr hk)
    have happ : s.Appendable k := ⟨htrust, hplaces⟩
    refine ⟨fun hblocked => absurd hblocked hfree, fun _ => ⟨hnot,
      fun hclear => treePutAppend_isOk hs hlast happ hbound hfits hclear, fun s' hrun => ?_⟩⟩
    obtain ⟨i', hs', hmap', -⟩ := treePutAppend_spec hs hlast happ hrun
    have hsmap : s'.map = Function.update s.map k (some v) := by
      rw [hs'.readable.map_eq, hmap', hmap]
    refine ⟨hsmap, fun t hput => ?_, ?_⟩
    · obtain ⟨i'', ht, hput⟩ := treePut_spec hs hput
      rw [hsmap, ht.readable.map_eq, hput, hmap]
    · refine (hs'.readable.treeGet_returns k).weaken ?_
      rintro found _ ⟨rfl, -⟩
      rw [hmap', Function.update_self]
  · intro hclear happ
    -- a key that is not refused is not blocked
    have hfree : ¬ s.Blocked last k := by
      intro hblocked
      obtain ⟨e, s', herror, -, he⟩ := happ.1 hblocked
      exact hnot e s' herror (he hclear)
    refine Or.inr ⟨fun hroot hkey hempty => ?_, fun a ha => not_le.mp fun hk => hfree (Or.inr ⟨a, ha, hk⟩)⟩
    cases i with
    | empty => exact absurd hread.root.symm hroot
    | tree t =>
      have hnone : s.appendBound = none := by
        unfold Session.appendBound
        rw [hkey, hempty]
        rfl
      have hnew : ∀ r ∈ recordsOf t.items, r.1 ≠ k := fun r hr heq =>
        hfree (Or.inl ⟨r.1, hpresent r hr, heq.ge⟩)
      obtain ⟨s', hrun, hfound | hget⟩ := treePutAppend_into_empty hs hlast htrust hnone hfits hclear hnew
      · exact hfound
      · have hreads := ((happ.2 hfree).2.2 s' hrun).2.2.sound _ _ hget
        cases hreads

/-- Five puts that make two leaves. -/
def fivePuts : List TreeCall :=
  [[10], [20], [30], [40], [50]].map fun key => .put key quarter

/-- Behind five puts, an append between the last two is refused, and one above all is
    put. -/
theorem put_append_is_checked_put_twice :
    ∃ s, runCalls HashOrder.stable fivePuts Session.blank = .ok () s
      ∧ (∃ e s', treePutAppend [45] [1] s = .error e s' ∧ s.Quiet s' ∧ e = .appendNotMonotonic)
      ∧ ∃ s', treePutAppend [60] [1] s = .ok () s' ∧ s'.map = Function.update s.map [60] (some [1]) := by
  refine exists_ok_imp (P := fun s => s.pager.faults = [] ∧ s.appendCachedPath = none
    ∧ value? (lastKey s.calm) = some (some [50]) ∧ s.appendBound = some [50]
    ∧ isOk (validateInsertRecordFits [45] [1] s) = true
    ∧ isOk (validateInsertRecordFits [60] [1] s) = true ∧ isOk (treePutAppend [60] [1] s) = true
    ∧ (s.map [50]).isSome = true)
    (by decide +kernel) fun s hrun ⟨hclear, hpath, hlastKey, hbound, hfits, hfits', hok, hmap⟩ => ?_
  have hreached : Reached HashOrder.stable s none :=
    Reached.runCalls _ (by decide) Reached.blank hrun
  have htrust : ∀ k, s.Trusts k := fun k p hp => (by rw [hpath] at hp; cases hp)
  have hplaces : s.Places [60] := fun _ _ hnone => (by rw [hlastKey] at hnone; cases hnone)
  have hrefused := (put_append_is_checked_put hreached [45] [1] (htrust _) (validate_of_isOk hfits)).1
    (Or.inl ⟨[50], hbound, by decide⟩)
  have hput := (put_append_is_checked_put hreached [60] [1] (htrust _) (validate_of_isOk hfits')).1
    (Or.inr ⟨hplaces, nofun⟩)
  obtain ⟨e, s', herror, hq, he⟩ := hrefused.1 (Or.inl ⟨[50], hmap, by decide⟩)
  obtain ⟨_, s'', hrun'⟩ := exists_ok_of_isOk hok
  refine ⟨⟨e, s', herror, hq, he hclear⟩, s'', hrun', (hput.2 ?_).2.2 s'' hrun' |>.1⟩
  -- a key that is not above all would have been refused
  intro hblocked
  obtain ⟨e, s', herror, -⟩ := hput.1 hblocked
  rw [hrun'] at herror
  cases herror

/-- **Three appends that go wrong.**  With the rightmost leaf emptied, a key below
    others is accepted and then not found; behind a flush the remembered path leads
    to the old page, and the record is lost; and the key last appended is forgotten
    with a delete. -/
theorem put_append_accepts_misplaced_key :
    (∃ s s', runCalls HashOrder.stable (fivePuts ++ [.delete [50]]) Session.blank = .ok () s
        ∧ treePutAppend [5] [1] s = .ok () s' ∧ (s.map [10]).isSome = true ∧ s'.map [5] = none)
      ∧ (∃ s s', runCalls HashOrder.stable [.putAppend [1] [1], .putAppend [2] [2], .flush]
            Session.blank = .ok () s
          ∧ treePutAppend [3] [3] s = .ok () s' ∧ s'.map [2] = some [2] ∧ s'.map [3] = none)
      ∧ ∃ s s', runCalls HashOrder.stable [.put [1] [1], .putAppend [5] [5], .delete [5]]
            Session.blank = .ok () s
          ∧ treePutAppend [3] [3] s = .ok () s' := by
  refine ⟨?_, ?_, ?_⟩
  · exact exists_ok_ok (by decide +kernel)
  · exact exists_ok_ok (by decide +kernel)
  · obtain ⟨_, s, hrun, htest⟩ := exists_of_okThen
      (r := runCalls HashOrder.stable [.put [1] [1], .putAppend [5] [5], .delete [5]] Session.blank)
      (p := fun _ s => okThen (treePutAppend [3] [3] s) fun _ _ => true) (by decide +kernel)
    obtain ⟨_, s', happ, -⟩ := exists_of_okThen htest
    exact ⟨s, s', hrun, happ⟩

/-! ## §2. `delete_range` -/

/-- **A range is deleted whole, and counted, exactly if its scans get across the
    leaves.**  In a session that calls reach: the link of a leaf that a scan of the range
    goes on from is unset or names the next leaf (`Session.RangeLinked`).  Otherwise, and
    if no await fails, the call ends with `LeafSiblingMismatch`. -/
theorem delete_range_is_exact (h : Reached hash s last) :
    ∃ i, Readable s i ∧ ∀ start stop, Decides Session.Clear .leafSiblingMismatch
      (s.RangeLinked i DELETE_RANGE_CHUNK start stop) (treeDeleteRange start stop) s fun n s' =>
        n = {k | start ≤ k ∧ k < stop ∧ (s.map k).isSome}.ncard
          ∧ ∀ k, s'.map k = if start ≤ k ∧ k < stop then none else s.map k := by
  obtain ⟨g, retired, i, hs, -⟩ := h.kept
  refine ⟨i, hs.readable, fun start stop => ?_⟩
  have hmap : s.map = i.map := hs.readable.map_eq
  have hkeys : ∀ k, k ∈ i.keysIn start stop ↔ start ≤ k ∧ k < stop ∧ (s.map k).isSome = true := by
    intro k
    rw [hmap, Image.mem_keysIn, and_assoc]
  refine (treeDeleteRange_decides hs start stop).congr Iff.rfl ?_
  rintro n s' ⟨rfl, i', hs', hmap'⟩
  constructor
  · have hset : {k | start ≤ k ∧ k < stop ∧ (s.map k).isSome = true}
        = ((i.keysIn start stop).toFinset : Set Bytes) := by
      ext k
      rw [Finset.mem_coe, mem_toFinset, hkeys]
      rfl
    rw [hset, Set.ncard_coe_finset, toFinset_card_of_nodup (hs.readable.keysIn_nodup start stop)]
  · intro k
    rw [hs'.readable.map_eq, hmap', ← hmap]
    by_cases hk : start ≤ k ∧ k < stop
    · rw [if_pos hk]
      by_cases hin : k ∈ i.keysIn start stop
      · rw [if_pos hin]
      · rw [if_neg hin]
        have hnone : ¬ (s.map k).isSome = true := fun hsome =>
          hin ((hkeys k).mpr ⟨hk.1, hk.2, hsome⟩)
        exact Option.not_isSome_iff_eq_none.mp hnone
    · rw [if_neg hk, if_neg fun hin => hk ⟨((hkeys k).mp hin).1, ((hkeys k).mp hin).2.1⟩]

/-- Two leaves that the bulk loader linked, the second changed and flushed to another
    page. -/
def staleLinkCalls : List TreeCall :=
  [.bulkLoad [[([10], quarter), ([20], quarter), ([30], quarter), ([40], quarter), ([50], quarter)]],
    .put [55] [1], .flush]

/-- A range that ends short of the stale link is deleted; one that goes on from it is
    not. -/
theorem delete_range_is_exact_stale :
    ∃ s, runCalls HashOrder.stable staleLinkCalls Session.blank = .ok () s ∧ ∃ i, Readable s i
      ∧ s.RangeLinked i DELETE_RANGE_CHUNK [10] [20] ∧ ¬ s.RangeLinked i DELETE_RANGE_CHUNK [20] [60]
      ∧ ∃ s', treeDeleteRange [10] [20] s = .ok 1 s'
        ∧ 1 = {k | [10] ≤ k ∧ k < [20] ∧ (s.map k).isSome}.ncard := by
  refine exists_ok_imp (P := fun s => s.pager.faults = []
    ∧ value? (treeDeleteRange [10] [20] s) = some 1 ∧ value? (treeDeleteRange [20] [60] s) = none)
    (by decide +kernel) fun s hrun ⟨hclear, hshort, hlong⟩ => ?_
  have hreached : Reached HashOrder.stable s none :=
    Reached.runCalls _ (by decide) Reached.blank hrun
  obtain ⟨i, hi, hexact⟩ := delete_range_is_exact hreached
  obtain ⟨s', hok⟩ : ∃ s', treeDeleteRange [10] [20] s = .ok 1 s' := by
    cases hrun' : treeDeleteRange [10] [20] s with
    | error e w =>
      rw [hrun'] at hshort
      cases hshort
    | ok n w =>
      rw [hrun'] at hshort
      cases hshort
      exact ⟨w, rfl⟩
  obtain ⟨hlinked, hcount, -⟩ := (hexact [10] [20]).sound _ _ hok
  refine ⟨i, hi, hlinked, fun hall => ?_, s', hok, hcount⟩
  obtain ⟨n, t, hrange, -⟩ := ((hexact [20] [60]).returns hall).total hclear
  rw [hrange] at hlong
  cases hlong

/-- **A link that a flush has left behind ends the call.** -/
theorem delete_range_fails_on_stale_link :
    ∃ s s', runCalls HashOrder.stable staleLinkCalls Session.blank = .ok () s
      ∧ s.Clear ∧ treeDeleteRange [20] [60] s = .error .leafSiblingMismatch s' := by
  obtain ⟨_, s, hrun, htest⟩ := exists_of_okThen
    (r := runCalls HashOrder.stable staleLinkCalls Session.blank)
    (p := fun _ s => decide (s.pager.faults = [])
      && errorThen (treeDeleteRange [20] [60] s) fun e _ => decide (e = .leafSiblingMismatch))
    (by decide +kernel)
  obtain ⟨hclear, htest⟩ := Bool.and_eq_true_iff.mp htest
  have hclear : s.pager.faults = [] := of_decide_eq_true hclear
  obtain ⟨e, s', hrange, he⟩ := exists_of_errorThen htest
  obtain rfl := of_decide_eq_true he
  exact ⟨s, s', hrun, hclear, hrange⟩

/-! ## §3. Batches -/

/-- A `put` for each pair. -/
def putEach : List (Bytes × Bytes) → TreeM Unit
  | [] => pure ()
  | (key, value) :: pairs => do
    treePut key value
    putEach pairs

/-- A `delete` for each key. -/
def deleteEach : List Bytes → TreeM Unit
  | [] => pure ()
  | key :: keys => do
    let _ ← treeDelete key
    deleteEach keys

theorem putEach_spec {g : Surroundings} {retired : List PageId} (pairs : List (Bytes × Bytes)) :
    ∀ {s s' : Session} {i : Image} {u : Unit}, Carries g s retired i → putEach pairs s = .ok u s' →
      ∃ i', Carries g s' retired i' ∧ i'.map = putAll i.map pairs := by
  induction pairs with
  | nil =>
    intro s s' i u hs hrun
    obtain ⟨-, rfl⟩ := pure_eq_ok.mp hrun
    exact ⟨i, hs, rfl⟩
  | cons r pairs ih =>
    intro s s' i u hs hrun
    obtain ⟨_, w, hput, hrest⟩ := bind_eq_ok.mp hrun
    obtain ⟨i₁, hw, hmap₁⟩ := treePut_spec hs hput
    obtain ⟨i', hs', hmap'⟩ := ih hw hrest
    exact ⟨i', hs', by rw [hmap', hmap₁]; rfl⟩

theorem deleteEach_spec {g : Surroundings} {retired : List PageId} (keys : List Bytes) :
    ∀ {s s' : Session} {i : Image} {u : Unit}, Carries g s retired i → deleteEach keys s = .ok u s' →
      ∃ i', Carries g s' retired i' ∧ i'.map = dropAll i.map keys := by
  induction keys with
  | nil =>
    intro s s' i u hs hrun
    obtain ⟨-, rfl⟩ := pure_eq_ok.mp hrun
    exact ⟨i, hs, rfl⟩
  | cons k keys ih =>
    intro s s' i u hs hrun
    obtain ⟨_, w, hdelete, hrest⟩ := bind_eq_ok.mp hrun
    obtain ⟨i₁, hw, hmap₁, -⟩ := treeDelete_spec hs hdelete
    obtain ⟨i', hs', hmap'⟩ := ih hw hrest
    exact ⟨i', hs', by rw [hmap', hmap₁]; rfl⟩

/-- **A batch does what its calls do one by one.**  In every session that calls
    reach, for any pairs and keys, in any order and with repeats. -/
theorem batches_equal_single_calls (h : Reached hash s last) :
    (∀ pairs s₁ s₂, treePutBatch pairs s = .ok () s₁ → putEach pairs s = .ok () s₂ →
        s₁.map = s₂.map)
      ∧ ∀ keys s₁ s₂, treeDeleteBatch keys s = .ok () s₁ → deleteEach keys s = .ok () s₂ →
        s₁.map = s₂.map := by
  obtain ⟨g, retired, i, hs, -⟩ := h.kept
  constructor
  · intro pairs s₁ s₂ hbatch heach
    obtain ⟨i₁, h₁, hmap₁⟩ := treePutBatch_spec hs hbatch
    obtain ⟨i₂, h₂, hmap₂⟩ := putEach_spec pairs hs heach
    rw [h₁.readable.map_eq, h₂.readable.map_eq, hmap₁, hmap₂]
  · intro keys s₁ s₂ hbatch heach
    obtain ⟨i₁, h₁, hmap₁, -⟩ := (treeDeleteBatch_returns hs).sound _ _ hbatch
    obtain ⟨i₂, h₂, hmap₂⟩ := deleteEach_spec keys hs heach
    rw [h₁.readable.map_eq, h₂.readable.map_eq, hmap₁, hmap₂]

/-- Pairs out of order, one key twice. -/
theorem batches_equal_single_calls_repeated :
    ∃ s₁ s₂, treePutBatch [([3], [1]), ([1], [2]), ([3], [4])] Session.blank = .ok () s₁
      ∧ putEach [([3], [1]), ([1], [2]), ([3], [4])] Session.blank = .ok () s₂
      ∧ s₁.map = s₂.map := by
  obtain ⟨_, s₁, h₁⟩ := exists_ok_of_isOk
    (r := treePutBatch [([3], [1]), ([1], [2]), ([3], [4])] Session.blank) (by decide +kernel)
  obtain ⟨_, s₂, h₂⟩ := exists_ok_of_isOk
    (r := putEach [([3], [1]), ([1], [2]), ([3], [4])] Session.blank) (by decide +kernel)
  have hblank : Reached HashOrder.stable Session.blank none := Reached.blank
  exact ⟨s₁, s₂, h₁, h₂, (batches_equal_single_calls hblank).1 _ s₁ s₂ h₁ h₂⟩

/-- A key of which a page takes four. -/
def longKey (n : UInt8) : Bytes := n :: List.replicate 999 0

/-- Six full leaves, a seventh emptied by a delete, and then filled and split by
    appends of keys that belong elsewhere. -/
def misplacedCalls : List TreeCall :=
  ([10, 20, 30, 40, 50, 60, 70, 80, 90, 100, 110, 120, 130].map fun n =>
      TreeCall.put (longKey n) quarter)
    ++ [.delete (longKey 130), .putAppend (longKey 63) quarter, .putAppend (longKey 64) quarter,
      .putAppend (longKey 65) quarter]

/-- **A batch that loses a key.**  A misplaced append has split a leaf below the
    wrong branch: its separator lies outside what the branch above says, the batch
    reuses the leaf for a key inside the near separators only. -/
theorem put_batch_misplaces_key :
    ∃ s s₁ s₂, runCalls HashOrder.stable misplacedCalls Session.blank = .ok () s
      ∧ treePutBatch [([85], []), ([68], [1])] s = .ok () s₁
      ∧ putEach [([85], []), ([68], [1])] s = .ok () s₂
      ∧ s₁.map [68] = none ∧ s₂.map [68] = some [1] := by
  obtain ⟨_, s, hrun, htest⟩ := exists_of_okThen
    (r := runCalls HashOrder.stable misplacedCalls Session.blank)
    (p := fun _ s => okThen (treePutBatch [([85], []), ([68], [1])] s) (fun _ s₁ =>
        decide (s₁.map [68] = none))
      && okThen (putEach [([85], []), ([68], [1])] s) fun _ s₂ =>
        decide (s₂.map [68] = some [1])) (by decide +kernel)
  obtain ⟨hbatch, heach⟩ := Bool.and_eq_true_iff.mp htest
  obtain ⟨_, s₁, hbatch, hnone⟩ := exists_of_okThen hbatch
  obtain ⟨_, s₂, heach, hsome⟩ := exists_of_okThen heach
  exact ⟨s, s₁, s₂, hrun, hbatch, heach, of_decide_eq_true hnone, of_decide_eq_true hsome⟩

/-! ## §4. `first_key` and `last_key` -/

/-- The answer is the key of the map that comes first in the order, or none if the
    map is empty. -/
def IsExtreme (le : Bytes → Bytes → Prop) (m : Bytes → Option Bytes) (r : Option Bytes) : Prop :=
  (r = none ↔ ∀ k, m k = none) ∧ ∀ k, r = some k → (m k).isSome ∧ ∀ j, (m j).isSome → le k j

/-- The answer is the smallest key of the map, or none if the map is empty. -/
def IsSmallest : (Bytes → Option Bytes) → Option Bytes → Prop := IsExtreme (· ≤ ·)

/-- The answer is the largest key of the map, or none if the map is empty. -/
def IsLargest : (Bytes → Option Bytes) → Option Bytes → Prop := IsExtreme (· ≥ ·)

/-- The leaf at which the descent ends is empty only if there is no record at all. -/
def Session.Fills (s : Session) (descent : TreeM (List PageId)) : Prop :=
  ∀ path u id leaf, descent s = .ok path u → path.getLast? = some id → s.leafAt id = some leaf →
    leaf.records = [] → ∀ k, s.map k = none

/-- If the first leaf, the one where the empty key belongs, is empty, so is the tree. -/
def Session.FirstLeafFilled (s : Session) : Prop := s.Fills (pathToLeafForKey [])

/-- If the last leaf is empty, so is the tree. -/
def Session.LastLeafFilled (s : Session) : Prop := s.Fills pathToRightmostLeaf

section Edges

variable {i : Image}

theorem Image.map_eq_none_iff : (∀ k, i.map k = none) ↔ recordsOf i.items = [] := by
  constructor
  · intro hnone
    refine eq_nil_iff_forall_not_mem.mpr fun r hr => ?_
    have hsome : (i.map r.1).isSome = true := Image.map_isSome_iff.mpr ⟨r, hr, rfl⟩
    rw [hnone] at hsome
    cases hsome
  · intro hnil k
    refine Option.not_isSome_iff_eq_none.mp fun hsome => ?_
    obtain ⟨r, hr, -⟩ := Image.map_isSome_iff.mp hsome
    rw [hnil] at hr
    cases hr

variable (hr : Readable s i)

include hr

theorem Readable.isSmallest :
    IsSmallest i.map ((recordsOf i.items).head?.map Prod.fst) := by
  rw [IsSmallest, IsExtreme, Image.map_eq_none_iff, Option.map_eq_none_iff, head?_eq_none_iff]
  refine ⟨Iff.rfl, fun k hk => ?_⟩
  obtain ⟨r, hhead, rfl⟩ := Option.map_eq_some_iff.mp hk
  obtain ⟨rest, hrecords⟩ := head?_eq_some_iff.mp hhead
  refine ⟨Image.map_isSome_iff.mpr ⟨r, mem_of_head? hhead, rfl⟩, fun j hj => ?_⟩
  obtain ⟨x, hx, rfl⟩ := Image.map_isSome_iff.mp hj
  have hasc := hr.ordered.ascending
  rw [hrecords] at hx hasc
  rcases mem_cons.mp hx with rfl | hx
  · exact le_refl _
  · exact le_of_lt ((pairwise_cons.mp hasc).1 x hx)

theorem Readable.isLargest :
    IsLargest i.map ((recordsOf i.items).getLast?.map Prod.fst) := by
  rw [IsLargest, IsExtreme, Image.map_eq_none_iff, Option.map_eq_none_iff, getLast?_eq_none_iff]
  refine ⟨Iff.rfl, fun k hk => ?_⟩
  obtain ⟨r, hlast, rfl⟩ := Option.map_eq_some_iff.mp hk
  obtain ⟨front, hrecords⟩ := getLast?_eq_some_iff.mp hlast
  refine ⟨Image.map_isSome_iff.mpr ⟨r, mem_of_getLast? hlast, rfl⟩, fun j hj => ?_⟩
  obtain ⟨x, hx, rfl⟩ := Image.map_isSome_iff.mp hj
  have hasc := hr.ordered.ascending
  rw [hrecords] at hx hasc
  rcases mem_append.mp hx with hx | hx
  · exact le_of_lt ((pairwise_append.mp hasc).2.2 x hx r (mem_singleton_self r))
  · rw [mem_singleton.mp hx]

omit hr in
theorem IsExtreme.unique {le : Bytes → Bytes → Prop} {m : Bytes → Option Bytes}
    {r r' : Option Bytes} (hle : ∀ a b, le a b → le b a → a = b) (h : IsExtreme le m r)
    (h' : IsExtreme le m r') : r = r' := by
  cases r with
  | none => exact (h'.1.mpr (h.1.mp rfl)).symm
  | some k =>
    cases r' with
    | none => exact h.1.mpr (h'.1.mp rfl)
    | some k' =>
      obtain ⟨hk, hfirst⟩ := h.2 k rfl
      obtain ⟨hk', hfirst'⟩ := h'.2 k' rfl
      exact congrArg some (hle k k' (hfirst k' hk') (hfirst' k hk))

/-- A descent that ended did so at one leaf, and that leaf decides. -/
theorem Readable.fills_iff {descent : TreeM (List PageId)} {path : List PageId} {u : Session}
    {id : PageId} {leaf : Leaf} (hrun : descent s = .ok path u) (hid : path.getLast? = some id)
    (hleaf : s.leafAt id = some leaf) :
    s.Fills descent ↔ (leaf.records = [] → recordsOf i.items = []) := by
  rw [← Image.map_eq_none_iff, ← hr.map_eq]
  constructor
  · exact fun h => h path u id leaf hrun hid hleaf
  · intro h path' u' id' leaf' hrun' hid' hleaf'
    rw [hrun] at hrun'
    cases hrun'
    rw [hid] at hid'
    cases hid'
    rw [hleaf] at hleaf'
    cases hleaf'
    exact h

/-- The leaf where the empty key belongs has no record left of it. -/
theorem firstKey_returns :
    Returns Session.Clear firstKey s fun r _ =>
      r = (recordsOf i.items).head?.map Prod.fst ↔ s.FirstLeafFilled := by
  unfold firstKey
  refine Returns.get ?_
  rw [← hr.root]
  cases i with
  | empty =>
    refine Returns.pure ⟨fun _ _ _ _ _ _ _ _ _ k => ?_, fun _ => rfl⟩
    rw [hr.map_eq]
    rfl
  | tree t =>
    rw [hr.root, if_neg hr.root_ne_zero]
    refine (hr.stand .right []).with_run.bind fun path u hu => ?_
    obtain ⟨hrun, hq, rest, behind, ⟨c, id, records, rfl, rfl, rfl⟩, hsplits, hbehind, -⟩ := hu
    have hnone : behind = [] := eq_nil_iff_forall_not_mem.mpr fun x hx =>
      absurd (hbehind x hx) (not_lt_nil _)
    have hsplit : recordsOf (c.plug (.leaf id records)).items
        = records ++ (c.ahead .right).flatMap LeafAt.records := by
      have hsplit := hsplits.records
      rw [hnone] at hsplit
      exact hsplit
    have hcell : (id, Cell.leaf records) ∈ (c.plug (.leaf id records)).cells :=
      (c.plug_cells _).mem_iff.mpr (mem_append_left _ (mem_singleton_self _))
    rw [getLast?_concat]
    refine (readLeaf_returns ((hr.quiet hq).rep _ hcell)).bind fun leaf w hw => ?_
    obtain ⟨-, hleaf, hrecords⟩ := hw
    rw [hq.leafAt] at hleaf
    refine Returns.pure ?_
    rw [Session.FirstLeafFilled, hr.fills_iff hrun getLast?_concat hleaf, hrecords]
    show (leafRecords records).head?.map Prod.fst
        = (recordsOf (c.plug (.leaf id records)).items).head?.map Prod.fst
      ↔ (leafRecords records = [] → recordsOf (c.plug (.leaf id records)).items = [])
    rw [hsplit]
    cases records with
    | nil => simp [leafRecords]
    | cons r records => simp [leafRecords]

theorem lastKey_returns :
    Returns Session.Clear lastKey s fun r _ =>
      r = (recordsOf i.items).getLast?.map Prod.fst ↔ s.LastLeafFilled := by
  unfold lastKey
  refine Returns.get ?_
  rw [← hr.root]
  cases i with
  | empty =>
    refine Returns.pure ⟨fun _ _ _ _ _ _ _ _ _ k => ?_, fun _ => rfl⟩
    rw [hr.map_eq]
    rfl
  | tree t =>
    rw [hr.root, if_neg hr.root_ne_zero]
    refine (pathToRightmostLeaf_returns hr).with_run.bind fun path u hu => ?_
    obtain ⟨hrun, hq, c, id, records, hright⟩ := hu
    have hsplit : recordsOf t.items = recordsOf c.before ++ records := by
      rw [hright.items, recordsOf_append, entries, recordsOf_records]
    have hid : path.getLast? = some id := by rw [hright.path, getLast?_concat]
    unfold maxKeyAtPath
    rw [hid]
    refine (readLeaf_returns (hright.look (hr.quiet hq))).bind fun leaf w hw => ?_
    obtain ⟨-, hleaf, hrecords⟩ := hw
    rw [hq.leafAt] at hleaf
    refine Returns.pure ?_
    rw [Session.LastLeafFilled, hr.fills_iff hrun hid hleaf, hrecords]
    show (leafRecords records).getLast?.map Prod.fst = (recordsOf t.items).getLast?.map Prod.fst
      ↔ (leafRecords records = [] → recordsOf t.items = [])
    rw [hsplit]
    rcases eq_nil_or_concat records with rfl | ⟨records, r, rfl⟩
    · simp [leafRecords]
    · simp [leafRecords]

end Edges

/-- A leaf with a record fills its edge. -/
theorem Session.Fills.of_record {descent : TreeM (List PageId)}
    (h : okThen (descent s) (fun path _ =>
      (path.getLast?.bind s.leafAt).any fun leaf => !leaf.records.isEmpty) = true) :
    s.Fills descent := by
  intro path u id leaf hrun hid hleaf hnil
  rw [hrun] at h
  have h : (path.getLast?.bind s.leafAt).any (fun leaf => !leaf.records.isEmpty) = true := h
  rw [hid, Option.bind_some, hleaf, Option.any_some, hnil] at h
  cases h

/-- **When the keys at the edges are the smallest and the largest.**  In a session
    that calls reach, what `first_key` answers is the smallest key exactly when the
    leaf where the empty key belongs is empty only if the tree is, and what `last_key`
    answers is the largest one exactly when that is so of the last leaf. -/
theorem edge_keys_are_extremes (h : Reached hash s last) :
    (Returns Session.Clear firstKey s fun r _ => IsSmallest s.map r ↔ s.FirstLeafFilled)
      ∧ Returns Session.Clear lastKey s fun r _ => IsLargest s.map r ↔ s.LastLeafFilled := by
  obtain ⟨g, retired, i, hs, -⟩ := h.kept
  have hr := hs.readable
  rw [hr.map_eq]
  constructor
  · refine (firstKey_returns hr).weaken fun r _ hiff => ?_
    rw [← hiff]
    constructor
    · exact fun hsmall => hsmall.unique (fun _ _ => le_antisymm) hr.isSmallest
    · rintro rfl
      exact hr.isSmallest
  · refine (lastKey_returns hr).weaken fun r _ hiff => ?_
    rw [← hiff]
    constructor
    · exact fun hlarge => hlarge.unique (fun _ _ => ge_antisymm) hr.isLargest
    · rintro rfl
      exact hr.isLargest

/-- Five records over two leaves. -/
theorem edge_keys_are_extremes_two_leaves :
    ∃ s, runCalls HashOrder.stable [.put [10] quarter, .put [20] quarter, .put [30] quarter,
          .put [40] quarter, .put [50] quarter] Session.blank = .ok () s
      ∧ (∃ t, firstKey s = .ok (some [10]) t ∧ IsSmallest s.map (some [10]))
      ∧ ∃ t, lastKey s = .ok (some [50]) t ∧ IsLargest s.map (some [50]) := by
  refine exists_ok_imp (P := fun s => okThen (firstKey s) (fun r _ => r = some [10]) = true
      ∧ okThen (lastKey s) (fun r _ => r = some [50]) = true
      ∧ okThen (pathToLeafForKey [] s) (fun path _ =>
        (path.getLast?.bind s.leafAt).any fun leaf => !leaf.records.isEmpty) = true
      ∧ okThen (pathToRightmostLeaf s) (fun path _ =>
        (path.getLast?.bind s.leafAt).any fun leaf => !leaf.records.isEmpty) = true)
    (by decide +kernel) fun s hrun ⟨hfirst, hlast, hhead, hend⟩ => ?_
  have hreached : Reached HashOrder.stable s none :=
    Reached.runCalls _ (by decide) Reached.blank hrun
  have hkeys := edge_keys_are_extremes hreached
  obtain ⟨a, t, hrun₁, ha⟩ := exists_of_okThen hfirst
  obtain ⟨b, u, hrun₂, hb⟩ := exists_of_okThen hlast
  obtain rfl := of_decide_eq_true ha
  obtain rfl := of_decide_eq_true hb
  exact ⟨⟨t, hrun₁, (hkeys.1.sound _ t hrun₁).mpr (.of_record hhead)⟩,
    u, hrun₂, (hkeys.2.sound _ u hrun₂).mpr (.of_record hend)⟩

/-- **An emptied leaf at the edge.**  Five records over two leaves: without the four
    of the first leaf `first_key` finds none, without the one of the last leaf
    `last_key` finds none. -/
theorem edge_keys_miss_records_behind_empty_leaf :
    (∃ s t, runCalls HashOrder.stable [.put [10] quarter, .put [20] quarter, .put [30] quarter,
          .put [40] quarter, .put [50] quarter, .deleteRange [10] [45]] Session.blank = .ok () s
        ∧ firstKey s = .ok none t ∧ (s.map [50]).isSome = true)
      ∧ ∃ s t, runCalls HashOrder.stable [.put [10] quarter, .put [20] quarter, .put [30] quarter,
            .put [40] quarter, .put [50] quarter, .delete [50]] Session.blank = .ok () s
          ∧ lastKey s = .ok none t ∧ (s.map [10]).isSome = true := by
  constructor
  · exact exists_ok_ok (by decide +kernel)
  · exact exists_ok_ok (by decide +kernel)

end Pagedb
