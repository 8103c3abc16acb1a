/-
  Pagedb.BTree.Slices — what the scans return (`btree/tree/{scan,scan_bounded}.rs`).

  A readable tree stands for one ascending list of records.  Every scan returns a
  slice of that list, wherever the leaf boundaries fall and however many leaves
  are empty, dirty or fresh.

  Main results:
    * `collectRange_returns`, `scanPrefix_returns`, `collectBatchFrom_returns`,
      `collectRevBatchBefore_returns` — one scan, one slice;
    * `pageForward_returns`, `pageBackward_returns` — paging visits every record
      once.
-/
import Pagedb.BTree.Sweep

namespace Pagedb

open Lib List

/-! ## §1. The list of records -/

/-- A record as a scan returns it. -/
def Stored.record (r : Bytes × Stored) : Bytes × Bytes := (r.1, r.2.bytes)

/-- The sorted key/value list an image stands for. -/
def Image.records (i : Image) : Found := (recordsOf i.items).map Stored.record

variable {h : Nat} {t : PageTree h} {s : Session} {i : Image}

theorem Readable.records_ascending (hr : Readable s i) : Ascending i.records :=
  pairwise_map.mpr hr.ordered.ascending

/-- What a scan left behind is not in its slice. -/
theorem records_filter {behind ahead : List (Bytes × Stored)} (good : Bytes → Bool)
    (hsplit : recordsOf t.items = behind ++ ahead) (hbehind : ∀ x ∈ behind, good x.1 = false) :
    (Image.tree t).records.filter (fun r => good r.1)
      = (ahead.filter fun r => good r.1).map Stored.record := by
  have hnil : behind.filter (fun r => good r.1) = [] :=
    filter_eq_nil_iff.mpr fun x hx => by simp [hbehind x hx]
  show ((recordsOf t.items).map Stored.record).filter _ = _
  rw [filter_map, hsplit, filter_append]
  show ((behind.filter fun r => good r.1) ++ (ahead.filter fun r => good r.1)).map Stored.record = _
  rw [hnil, nil_append]

/-! ## §2. Scans to the right -/

theorem resolveLeafValue_returns {v : Stored} (hv : v.Legible s.pager) :
    Returns Session.Clear (resolveLeafValue v.leafValue) s fun r s' => r = v.bytes ∧ s.Quiet s' := by
  obtain ⟨hheld, hnodup, hzero⟩ := hv
  obtain ⟨bytes, pages⟩ := v
  cases pages with
  | nil => exact Returns.pure ⟨rfl, Session.Quiet.refl s⟩
  | cons root pages =>
    exact readChain_returns hheld hnodup fun hmem => hzero (mem_cons_of_mem _ hmem)

theorem pushRecord_returns {out : Found} {r : Bytes × Stored} (hv : r.2.Legible s.pager) :
    Returns Session.Clear (pushRecord out (r.1, r.2.leafValue)) s fun out' s' =>
      out' = out ++ [Stored.record r] ∧ s.Quiet s' := by
  unfold pushRecord
  refine (resolveLeafValue_returns hv).bind ?_
  rintro v u ⟨rfl, hq⟩
  exact Returns.pure ⟨rfl, hq⟩

/-- A visit that ends the scan at `halt`, takes a record at `keep` and returns with
    the record that makes it `done`. -/
theorem visit_returns {visit : Found → Bytes × LeafValue → TreeM (Found × Bool)}
    (halt : Bytes → Bool) {keep : Bytes → Bool} {done : Found → Bool}
    (hvisit : ∀ out r, visit out r = if halt r.1 then pure (out, true)
      else if keep r.1 then do
        let out ← pushRecord out r
        pure (out, done out)
      else pure (out, false)) (s : Session) (out : Found) (r : Bytes × Stored)
    (hv : r.2.Legible s.pager) :
    Returns Session.Clear (visit out (r.1, r.2.leafValue)) s fun a s' =>
      a = (if halt r.1 then (out, true)
        else if keep r.1 then (out ++ [Stored.record r], done (out ++ [Stored.record r]))
        else (out, false)) ∧ s.Quiet s' := by
  rw [hvisit]
  cases halt r.1 with
  | true => exact Returns.pure ⟨rfl, Session.Quiet.refl s⟩
  | false =>
    cases keep r.1 with
    | true =>
      refine (pushRecord_returns hv).bind ?_
      rintro out' u ⟨rfl, hq⟩
      exact Returns.pure ⟨rfl, hq⟩
    | false => exact Returns.pure ⟨rfl, Session.Quiet.refl s⟩

section Forward

variable {σ : Type} {visit : σ → Bytes × LeafValue → TreeM (σ × Bool)}
  {look : σ → Bytes × Stored → σ × Bool}

theorem forward_visits (hvisit : ∀ (s : Session) (out : σ) (r : Bytes × Stored),
      r.2.Legible s.pager → Returns Session.Clear (visit out (r.1, r.2.leafValue)) s
        fun a s' => a = look out r ∧ s.Quiet s') :
    (LeafScan.forward visit).Visits .right look where
  next := rfl
  order := fun _ => rfl
  visit := hvisit
  full := nofun

/-- **A scan to the right sweeps over all but keys below its start.** -/
theorem LeafScan.Visits.from_key {sc : LeafScan σ} (hv : sc.Visits .right look)
    (hr : Readable s (.tree t)) (ha : ∀ leaf next, sc.agrees leaf next = true) (k : Bytes) (out : σ) :
    Returns Session.Clear (do
        let path ← pathToLeafForKey k
        sc.walk path out) s
      fun r s' => s.Quiet s' ∧ ∃ behind ahead, recordsOf t.items = behind ++ ahead
        ∧ (∀ x ∈ behind, x.1 < k) ∧ r = (sweep look ahead out).1 := by
  refine (hr.stand .right k).bind ?_
  rintro path u ⟨hq, rest, behind, hstand, hsplit, hbehind, -⟩
  refine (hv.walk_returns (hr.quiet hq) ha hstand).weaken ?_
  rintro r w ⟨rfl, hq'⟩
  exact ⟨hq.trans hq', behind, _, hsplit.records, hbehind, rfl⟩

end Forward

theorem haltsPast_of_ascending {behind ahead : List (Bytes × Stored)} (halt good : Bytes → Bool)
    (hr : Readable s (.tree t)) (hsplit : recordsOf t.items = behind ++ ahead)
    (hpast : ∀ j k, j < k → halt j = true → good k = false) :
    HaltsPast (fun r => halt r.1) (fun r => good r.1) ahead := by
  have hasc : Ascending (recordsOf t.items) := hr.ordered.ascending
  rw [hsplit] at hasc
  exact (pairwise_append.mp hasc).2.1.imp fun {a b} hab => hpast a.1 b.1 hab

/-- A scan to the right that takes all it wants. -/
theorem collect_returns {visit : Found → Bytes × LeafValue → TreeM (Found × Bool)}
    (halt keep good : Bytes → Bool) {k : Bytes} (hr : Readable s (.tree t))
    (hvisit : ∀ out r, visit out r = if halt r.1 then pure (out, true)
      else if keep r.1 then do
        let out ← pushRecord out r
        pure (out, false)
      else pure (out, false))
    (hgood : ∀ j, good j = (keep j && !halt j))
    (hpast : ∀ j k, j < k → halt j = true → good k = false) (hbelow : ∀ j, j < k → good j = false) :
    Returns Session.Clear (do
        let path ← pathToLeafForKey k
        (LeafScan.forward visit).walk path []) s
      fun r s' => r = (Image.tree t).records.filter (fun r => good r.1) ∧ s.Quiet s' := by
  refine ((forward_visits (visit_returns halt hvisit)).from_key hr (fun _ _ => rfl) k []).weaken ?_
  rintro r u ⟨hq, behind, ahead, hsplit, hbehind, rfl⟩
  refine ⟨?_, hq⟩
  rw [records_filter good hsplit fun x hx => hbelow x.1 (hbehind x hx)]
  exact sweep_filter (f := Stored.record) (fun r => halt r.1) (fun r => keep r.1)
    (fun _ _ => rfl) (fun x => hgood x.1)
    (haltsPast_of_ascending halt good hr hsplit hpast)

theorem Readable.empty_returns {α : Type} {x : TreeM α} {a : α} (hr : Readable s .empty) :
    Returns Session.Clear (do
        if (← get).rootPageId = 0 then pure a else x) s fun r s' => r = a ∧ s.Quiet s' := by
  refine Returns.get ?_
  have hroot : s.rootPageId = 0 := hr.root.symm
  rw [if_pos hroot]
  exact Returns.pure ⟨rfl, Session.Quiet.refl s⟩

/-- **`collect_range` returns the records from `start` on below `stop`.** -/
theorem collectRange_returns (hr : Readable s i) (start stop : Bytes) :
    Returns Session.Clear (collectRange start stop) s fun r s' =>
      r = below stop (since start i.records) ∧ s.Quiet s' := by
  cases i with
  | empty => exact hr.empty_returns
  | tree t =>
    rw [below_since]
    unfold collectRange
    refine Returns.get ?_
    rw [if_neg hr.root_ne_zero]
    refine collect_returns (atLeast stop) (atLeast start) (inRange start stop) hr ?_ ?_ ?_ ?_
    · intro out r
      unfold visitRange
      simp only [atLeast_iff]
    · intro j
      rw [Bool.eq_iff_iff, inRange_iff]
      simp [and_comm]
    · intro j k hjk hj
      have hle : stop ≤ k := (atLeast_iff.mp hj).trans hjk.le
      rw [Bool.eq_false_iff, Ne, inRange_iff]
      exact fun hin => absurd hle (not_le.mpr hin.1)
    · intro j hj
      rw [Bool.eq_false_iff, Ne, inRange_iff]
      exact fun hin => absurd hin.2 (not_le.mpr hj)

/-- **`scan_rev` returns the same records downwards.** -/
theorem scanRev_returns (hr : Readable s i) (start stop : Bytes) :
    Returns Session.Clear (scanRev start stop) s fun r s' =>
      r = (below stop (since start i.records)).reverse ∧ s.Quiet s' := by
  unfold scanRev
  refine (collectRange_returns hr start stop).bind ?_
  rintro r u ⟨rfl, hq⟩
  exact Returns.pure ⟨rfl, hq⟩

theorem isPrefixOf_of_between {lead j k : Bytes} (hj : lead ≤ j) (hjk : j < k)
    (hk : lead.isPrefixOf k = true) : lead.isPrefixOf j = true :=
  isPrefixOf_iff_prefix.mpr (prefix_of_between (List.isPrefixOf_iff_prefix.mp hk) hj hjk)

theorem isPrefixOf_of_lt {lead j : Bytes} (hj : j < lead) : lead.isPrefixOf j = false := by
  cases hp : lead.isPrefixOf j with
  | false => rfl
  | true => exact absurd hj (not_lt.mpr (prefix_le (List.isPrefixOf_iff_prefix.mp hp)))

/-- **`scan_prefix` returns the records with the leading bytes.** -/
theorem scanPrefix_returns (hr : Readable s i) (lead : Bytes) :
    Returns Session.Clear (scanPrefix lead) s fun r s' =>
      r = within lead.isPrefixOf i.records ∧ s.Quiet s' := by
  cases i with
  | empty => exact hr.empty_returns
  | tree t =>
    unfold scanPrefix
    refine Returns.get ?_
    rw [if_neg hr.root_ne_zero]
    -- the scan ends at the first key past the leading bytes
    refine collect_returns (fun k => !decide (k < lead) && !lead.isPrefixOf k) lead.isPrefixOf
      lead.isPrefixOf hr ?_ ?_ ?_ ?_
    · intro out r
      unfold visitPrefix
      by_cases hlt : r.1 < lead
      · simp [hlt, isPrefixOf_of_lt hlt]
      · cases hp : lead.isPrefixOf r.1 <;> simp [hlt]
    · intro j
      cases hp : lead.isPrefixOf j <;> simp
    · intro j k hjk hj
      have hj : ¬ j < lead ∧ lead.isPrefixOf j = false := by simpa using hj
      cases hp : lead.isPrefixOf k with
      | false => rfl
      | true =>
        rw [isPrefixOf_of_between (not_lt.mp hj.1) hjk hp] at hj
        cases hj.2
    · intro j hj
      exact isPrefixOf_of_lt hj

/-! ## §3. Batches -/

/-- **`collect_batch_from` returns the first records from `start` on.** -/
theorem collectBatchFrom_returns (hr : Readable s i) (start : Bytes) (limit : Nat) :
    Returns Session.Clear (collectBatchFrom start limit) s fun r s' =>
      r = (since start i.records).take limit ∧ s.Quiet s' := by
  unfold collectBatchFrom
  refine Returns.get ?_
  split_ifs with hnone
  · refine Returns.pure ⟨?_, Session.Quiet.refl s⟩
    cases i with
    | empty => exact take_nil.symm
    | tree t =>
      rcases hnone with hroot | rfl
      · exact absurd hroot hr.root_ne_zero
      · rfl
  · cases i with
    | empty => exact absurd (Or.inl hr.root.symm) hnone
    | tree t =>
      -- one visit; past a full batch it changes nothing
      have hv : LeafScan.Visits { LeafScan.forward (visitBatch start limit) with
          full := fun out => decide (out.length = limit) } .right fun out r =>
            if atLeast start r.1 then
              if out.length = limit then (out, true) else (out ++ [Stored.record r], false)
            else (out, false) := by
        refine ⟨rfl, fun _ => rfl, fun u out r hlegible => ?_, fun out hfull r => ?_⟩
        · show Returns _ (visitBatch start limit out (r.1, r.2.leafValue)) u _
          unfold visitBatch
          dsimp only
          by_cases hlt : r.1 < start
          · have hout : ¬ atLeast start r.1 = true := by simpa using hlt
            rw [if_pos hlt, if_neg hout]
            exact Returns.pure ⟨rfl, Session.Quiet.refl u⟩
          · have hin : atLeast start r.1 = true := by simpa using hlt
            rw [if_neg hlt, if_pos hin]
            by_cases hfull : out.length = limit
            · rw [if_pos hfull, if_pos hfull]
              exact Returns.pure ⟨rfl, Session.Quiet.refl u⟩
            · rw [if_neg hfull, if_neg hfull]
              refine (pushRecord_returns hlegible).bind ?_
              rintro out' w ⟨rfl, hq⟩
              exact Returns.pure ⟨rfl, hq⟩
        · have hfull : out.length = limit := of_decide_eq_true hfull
          rw [if_pos hfull]
          split <;> rfl
      refine (hv.from_key hr (fun _ _ => rfl) start []).weaken ?_
      rintro r u ⟨hq, behind, ahead, hsplit, hbehind, rfl⟩
      refine ⟨?_, hq⟩
      rw [sweep_take (f := Stored.record) (fun r => atLeast start r.1)
        (fun _ _ => rfl) (Nat.zero_le limit), since_eq_within]
      have hslice := records_filter (atLeast start) hsplit fun x hx =>
        atLeast_eq_false.mpr (hbehind x hx)
      unfold within
      rw [hslice, map_take]
      rfl

/-- **`collect_rev_batch_before` returns the last records below the bound,
    downwards.** -/
theorem collectRevBatchBefore_returns (hr : Readable s i) (before : Option Bytes) (limit : Nat) :
    Returns Session.Clear (collectRevBatchBefore before limit) s fun r s' =>
      r = (belowOpt before i.records).reverse.take limit ∧ s.Quiet s' := by
  unfold collectRevBatchBefore
  refine Returns.get ?_
  split_ifs with hnone
  · refine Returns.pure ⟨?_, Session.Quiet.refl s⟩
    cases i with
    | empty =>
      have hnil : belowOpt before (Image.records .empty) = [] := by cases before <;> rfl
      rw [hnil]
      exact take_nil.symm
    | tree t =>
      rcases hnone with hroot | rfl
      · exact absurd hroot hr.root_ne_zero
      · rfl
  · cases i with
    | empty => exact absurd (Or.inl hr.root.symm) hnone
    | tree t =>
      have hpos : 0 < limit := Nat.pos_of_ne_zero fun h0 => hnone (Or.inr h0)
      let low : Bytes → Bool := fun k => !before.any fun b => decide (b ≤ k)
      have hvisit : ∀ out r, visitBefore before limit out r = if false then pure (out, true)
          else if low r.1 then do
            let out ← pushRecord out r
            pure (out, decide (out.length = limit))
          else pure (out, false) := by
        intro out r
        unfold visitBefore
        cases hany : before.any fun b => decide (b ≤ r.1) <;> simp [low, hany]
      have hv : (LeafScan.backward (visitBefore before limit)).Visits .left _ :=
        ⟨rfl, fun _ => rfl, visit_returns (fun _ => false) hvisit,
          nofun⟩
      have hstart : Returns Session.Clear (pathBefore before) s fun path s' => s.Quiet s' ∧
          ∃ rest behind, Stands .left t path rest ∧ Splits .left t rest behind
            ∧ ∀ x ∈ behind, low x.1 = false := by
        cases before with
        | some b =>
          refine (hr.stand .left b).weaken ?_
          rintro path u ⟨hq, rest, behind, hstand, hsplit, hbehind, -⟩
          refine ⟨hq, rest, behind, hstand, hsplit, fun x hx => ?_⟩
          have hx : b < x.1 := hbehind x hx
          simp [low, hx.le]
        | none =>
          refine hr.standLast.weaken ?_
          rintro path u ⟨hq, rest, hstand, hsplit⟩
          exact ⟨hq, rest, [], hstand, hsplit, nofun⟩
      refine hstart.bind ?_
      rintro path u ⟨hq, rest, behind, hstand, hsplit, hbehind⟩
      refine (hv.walk_returns (hr.quiet hq) (fun _ _ => rfl) hstand).weaken ?_
      rintro r w ⟨rfl, hq'⟩
      refine ⟨?_, hq.trans hq'⟩
      have hroom : ([] : Found).length < limit := hpos
      rw [sweep_page (f := Stored.record) (fun _ => false) (fun r => low r.1)
        (fun r => low r.1) (fun _ _ => rfl)
        (fun x => (Bool.and_true _).symm) (pairwise_of_forall nofun) hroom]
      -- downwards, what is behind the scan comes first
      have hdown : (belowOpt before (Image.tree t).records).reverse
          = ((rest.flatMap fun l => Side.order .left l.records).filter fun r => low r.1).map
            Stored.record := by
        have hnil : behind.filter (fun r => low r.1) = [] :=
          filter_eq_nil_iff.mpr fun x hx => by simp [hbehind x hx]
        have hlow : belowOpt before (Image.tree t).records
            = (Image.tree t).records.filter fun r => low r.1 := by
          cases before with
          | none => exact (filter_eq_self.mpr fun _ _ => rfl).symm
          | some b =>
            refine filter_congr fun r _ => ?_
            simp [low, ← not_le]
        have hrecords : (recordsOf t.items).reverse
            = behind ++ rest.flatMap fun l => Side.order .left l.records := hsplit.records
        rw [hlow, ← filter_reverse]
        show ((recordsOf t.items).map Stored.record).reverse.filter _ = _
        rw [← map_reverse, hrecords, filter_map]
        show ((behind ++ _).filter fun r => low r.1).map Stored.record = _
        rw [filter_append, hnil, nil_append]
      rw [hdown, map_take]
      rfl

/-! ## §4. Paging -/

/-- A caller that reads the tree batch by batch: each batch resumes at the last key
    returned with a zero byte behind it. -/
def pageForward (limit : Nat) : Nat → Bytes → TreeM Found
  | 0, _ => throw .diverges
  | turns + 1, cursor => do
    let batch ← collectBatchFrom cursor limit
    match batch.getLast? with
    | none => pure []
    | some last => do
      let more ← pageForward limit turns (last.1 ++ [0])
      pure (batch ++ more)

/-- The same downwards: each batch resumes below the last key returned. -/
def pageBackward (limit : Nat) : Nat → Option Bytes → TreeM Found
  | 0, _ => throw .diverges
  | turns + 1, before => do
    let batch ← collectRevBatchBefore before limit
    match batch.getLast? with
    | none => pure []
    | some last => do
      let more ← pageBackward limit turns (some last.1)
      pure (batch ++ more)

theorem eq_nil_of_page {α : Type} {xs : List α} {n : Nat} (hn : 0 < n)
    (hlast : (xs.take n).getLast? = none) : xs = [] := by
  rcases take_eq_nil_iff.mp (getLast?_eq_none_iff.mp hlast) with h0 | h0
  · omega
  · exact h0

theorem length_drop_lt {α : Type} {xs : List α} {x : α} {n turns : Nat} (hn : 0 < n)
    (hx : (xs.take n).getLast? = some x) (hturns : xs.length < turns + 1) :
    (xs.drop n).length < turns := by
  have hpos : 0 < xs.length := length_pos_of_mem (mem_of_mem_take (mem_of_getLast? hx))
  rw [length_drop]
  omega

/-- **Paging forward visits every record from the cursor on once.** -/
theorem pageForward_returns {limit : Nat} (hn : 0 < limit) :
    ∀ (turns : Nat) (cursor : Bytes) (s : Session), Readable s i →
      (since cursor i.records).length < turns →
      Returns Session.Clear (pageForward limit turns cursor) s fun r s' =>
        r = since cursor i.records ∧ s.Quiet s' := by
  intro turns
  induction turns with
  | zero =>
    intro cursor s _ hturns
    exact absurd hturns (Nat.not_lt_zero _)
  | succ turns ih =>
    intro cursor s hr hturns
    unfold pageForward
    refine (collectBatchFrom_returns hr cursor limit).bind ?_
    rintro batch u ⟨rfl, hq⟩
    cases hlast : ((since cursor i.records).take limit).getLast? with
    | none =>
      refine Returns.pure ⟨?_, hq⟩
      exact (eq_nil_of_page hn hlast).symm
    | some last =>
      have hnext : since (last.1 ++ [0]) i.records = (since cursor i.records).drop limit :=
        since_after_page hr.records_ascending hlast
          (append_bot_le_iff (fun _ => UInt8.zero_le) last.1)
      have hleft := length_drop_lt hn hlast hturns
      rw [← hnext] at hleft
      refine (ih (last.1 ++ [0]) u (hr.quiet hq) hleft).bind ?_
      rintro more w ⟨rfl, hq'⟩
      refine Returns.pure ⟨?_, hq.trans hq'⟩
      rw [hnext, take_append_drop]

/-- **Paging backward visits every record below the bound once.** -/
theorem pageBackward_returns {limit : Nat} (hn : 0 < limit) :
    ∀ (turns : Nat) (before : Option Bytes) (s : Session), Readable s i →
      (belowOpt before i.records).length < turns →
      Returns Session.Clear (pageBackward limit turns before) s fun r s' =>
        r = (belowOpt before i.records).reverse ∧ s.Quiet s' := by
  intro turns
  induction turns with
  | zero =>
    intro before s _ hturns
    exact absurd hturns (Nat.not_lt_zero _)
  | succ turns ih =>
    intro before s hr hturns
    unfold pageBackward
    refine (collectRevBatchBefore_returns hr before limit).bind ?_
    rintro batch u ⟨rfl, hq⟩
    cases hlast : ((belowOpt before i.records).reverse.take limit).getLast? with
    | none =>
      refine Returns.pure ⟨?_, hq⟩
      exact (eq_nil_of_page hn hlast).symm
    | some last =>
      have hnext : (belowOpt (some last.1) i.records).reverse
          = (belowOpt before i.records).reverse.drop limit :=
        belowOpt_after_page hr.records_ascending hlast
      have hleft := length_drop_lt hn hlast (length_reverse.trans_lt hturns)
      rw [← hnext, length_reverse] at hleft
      refine (ih (some last.1) u (hr.quiet hq) hleft).bind ?_
      rintro more w ⟨rfl, hq'⟩
      refine Returns.pure ⟨?_, hq.trans hq'⟩
      rw [hnext, take_append_drop]

/-- **Scans and paging are exact.**  On every readable tree each scan returns its
    slice of the ascending list of records, and paging through batches of any
    size from either end yields that list. -/
theorem scans_return_slices (hr : Readable s i) : Ascending i.records
      ∧ (∀ start stop, Returns Session.Clear (collectRange start stop) s fun r s' =>
          r = below stop (since start i.records) ∧ s.Quiet s')
      ∧ (∀ start stop, Returns Session.Clear (scanRev start stop) s fun r s' =>
          r = (below stop (since start i.records)).reverse ∧ s.Quiet s')
      ∧ (∀ lead, Returns Session.Clear (scanPrefix lead) s fun r s' =>
          r = within lead.isPrefixOf i.records ∧ s.Quiet s')
      ∧ (∀ start limit, Returns Session.Clear (collectBatchFrom start limit) s fun r s' =>
          r = (since start i.records).take limit ∧ s.Quiet s')
      ∧ (∀ before limit, Returns Session.Clear (collectRevBatchBefore before limit) s fun r s' =>
          r = (belowOpt before i.records).reverse.take limit ∧ s.Quiet s')
      ∧ (∀ limit turns, 0 < limit → i.records.length < turns →
          Returns Session.Clear (pageForward limit turns []) s fun r s' =>
            r = i.records ∧ s.Quiet s')
      ∧ ∀ limit turns, 0 < limit → i.records.length < turns →
          Returns Session.Clear (pageBackward limit turns none) s fun r s' =>
            r = i.records.reverse ∧ s.Quiet s' := by
  refine ⟨hr.records_ascending, collectRange_returns hr, scanRev_returns hr, scanPrefix_returns hr,
    collectBatchFrom_returns hr, collectRevBatchBefore_returns hr, ?_, ?_⟩
  · intro limit turns hn hturns
    have hall : since ([] : Bytes) i.records = i.records :=
      since_eq_self fun r _ => not_lt.mp (not_lt_nil r.1)
    rw [← hall] at hturns
    refine (pageForward_returns hn turns [] s hr hturns).weaken ?_
    rw [hall]
    exact fun _ _ hr' => hr'
  · intro limit turns hn hturns
    exact pageBackward_returns hn turns none s hr hturns

/-- A tree of three leaves: one in the pager, one empty and dirty, one fresh. -/
def mixedImage : Image :=
  .tree (.branch 4 (.leaf 5 [([1], ⟨[7], []⟩), ([2], ⟨[8], []⟩)])
    [([3], .leaf 6 []), ([5], .leaf 7 [([6], ⟨[9], []⟩)])] : PageTree 1)

/-- A session that shows it. -/
def mixedSession : Session :=
  { BTree.open 4096 4 8 none with
    dirtyLeaves := (∅ : Table PageId Leaf).insert 6 Leaf.new
    freshLeaves := (∅ : Table PageId Leaf).insert 7 { Leaf.new with records := [([6], .inline [9])] }
    pager :=
      { dirty := []
        disk := [(4, .internal { leftmostChild := 5, entries := [([3], 6), ([5], 7)] }),
          (5, .leaf { Leaf.new with records := [([1], .inline [7]), ([2], .inline [8])] }),
          (6, .leaf { Leaf.new with records := [([3], .inline [1])] })]
        written := []
        faults := [] }
    cache := []
    consumed := [] }

theorem mixedSession_readable : Readable mixedSession mixedImage where
  rep := by
    intro e he
    have he : e ∈ [(4, Cell.branch 5 [([3], 6), ([5], 7)]),
        (5, .leaf [([1], ⟨[7], []⟩), ([2], ⟨[8], []⟩)]), (6, .leaf []),
        (7, .leaf [([6], ⟨[9], []⟩)])] := he
    simp only [mem_cons, not_mem_nil, or_false] at he
    rcases he with rfl | rfl | rfl | rfl <;> rfl
  ordered := by
    show InOrder [.entry [1] _, .entry [2] _, .sep [3], .sep [5], .entry [6] _]
    decide
  nodup := by decide
  zero := by decide
  paged := by
    intro id hid
    rcases (AList.mem_insert _).mp hid with rfl | hid
    · exact ⟨_, rfl⟩
    · exact absurd hid (AList.notMem_empty id)
  values := by
    intro r hr
    have hr : r ∈ [([1], (⟨[7], []⟩ : Stored)), ([2], ⟨[8], []⟩), ([6], ⟨[9], []⟩)] := hr
    simp only [mem_cons, not_mem_nil, or_false] at hr
    rcases hr with rfl | rfl | rfl <;> exact ⟨trivial, nodup_nil, not_mem_nil⟩
  root := rfl

/-- The slices of that tree. -/
theorem scans_return_slices_mixed : Readable mixedSession mixedImage
    ∧ Returns Session.Clear (collectRange [2] [7]) mixedSession fun r s' =>
        r = [([2], [8]), ([6], [9])] ∧ mixedSession.Quiet s' :=
  ⟨mixedSession_readable, (scans_return_slices mixedSession_readable).2.1 [2] [7]⟩

end Pagedb
