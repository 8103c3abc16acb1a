/-
  Pagedb.BTree.PrefixPages — the two pagers over keys with the same leading bytes
  (`btree/tree/{scan,scan_bounded}.rs`).

  Both are meant to page through the same records: those from `start` on whose key
  begins with `lead`.  The bounded pager clamps `start` to `lead` and weighs each
  record before it reads the value.  The other one takes a batch of any records
  and cuts it at the first key without the leading bytes, so a key between `start`
  and `lead` ends it before it began.

  Main results:
    * `collectPrefixBatchBounded_returns` — the longest run within the budgets;
    * `collectPrefixBatchFrom_returns`    — the cut batch, for every start;
    * `prefix_pagers_agree`               — what both return, and when it is the
      same;
    * `key_before_lead_hides_matches`     — a run where it is not.
-/
import Pagedb.BTree.Slices

namespace Pagedb

open Lib List

variable {h : Nat} {t : PageTree h} {s : Session} {i : Image} {lead start : Bytes}
  {maxRecords maxBytes : Nat}

/-! ## §1. Budgets -/

/-- Key and value bytes of a batch. -/
def payload (entries : Found) : Nat := (entries.map fun r => r.1.length + r.2.length).sum

@[simp] theorem payload_append (xs ys : Found) : payload (xs ++ ys) = payload xs + payload ys := by
  unfold payload
  rw [map_append, sum_append]

@[simp] theorem payload_singleton (r : Bytes × Bytes) : payload [r] = r.1.length + r.2.length := by
  unfold payload
  simp

/-- Within both budgets. -/
def Affordable (maxRecords maxBytes : Nat) (entries : Found) : Prop :=
  entries.length ≤ maxRecords ∧ payload entries ≤ maxBytes

/-- The longest affordable run from the front of `matching`. -/
structure Longest (maxRecords maxBytes : Nat) (matching entries : Found) : Prop where
  front : entries <+: matching
  fits : Affordable maxRecords maxBytes entries
  longest : ∀ run, run <+: matching → Affordable maxRecords maxBytes run → run <+: entries

/-- Which budget left a record out, if any did. -/
def limitFor (maxRecords : Nat) (matching entries : Found) : Option ScanLimit :=
  if entries.length = matching.length then none
  else if entries.length = maxRecords then some .records
  else some .bytes

/-- How a bounded scan ended. -/
inductive Filled (maxRecords maxBytes : Nat) (matching entries : Found) : Option ScanLimit → Prop where
  | all : matching = entries → Filled maxRecords maxBytes matching entries none
  | records (r : Bytes × Bytes) (rest : Found) : matching = entries ++ r :: rest →
      entries.length = maxRecords → Filled maxRecords maxBytes matching entries (some .records)
  | bytes (r : Bytes × Bytes) (rest : Found) : matching = entries ++ r :: rest →
      entries.length ≠ maxRecords → maxBytes < payload (entries ++ [r]) →
      Filled maxRecords maxBytes matching entries (some .bytes)

/-- A longer run from the front holds the next record. -/
theorem prefix_of_not_next {matching entries run rest : Found} {r : Bytes × Bytes}
    (hm : matching = entries ++ r :: rest) (hrun : run <+: matching)
    (hnext : ¬ entries ++ [r] <+: run) : run <+: entries := by
  have hfront : entries ++ [r] <+: matching := ⟨rest, by rw [hm, append_assoc]; rfl⟩
  rcases prefix_or_prefix_of_prefix hrun hfront with hle | hle
  · -- a run within the next record that is not all of it stops before it
    have hlen : run.length ≤ entries.length := by
      by_contra hgt
      have heq : run = entries ++ [r] := by
        refine hle.eq_of_length ?_
        have := hle.length_le
        rw [length_append, length_singleton] at this ⊢
        omega
      exact hnext (heq ▸ prefix_refl _)
    exact prefix_of_prefix_length_le hle (prefix_append entries [r]) hlen
  · exact absurd hle hnext

theorem Affordable.of_prefix {xs ys : Found} (hy : Affordable maxRecords maxBytes ys)
    (hle : xs <+: ys) : Affordable maxRecords maxBytes xs := by
  obtain ⟨rest, rfl⟩ := hle
  obtain ⟨hlen, hbytes⟩ := hy
  rw [length_append] at hlen
  rw [payload_append] at hbytes
  exact ⟨by omega, by omega⟩

/-- A scan that ended at a budget took all that it could. -/
theorem Filled.longest {matching entries : Found} {limit : Option ScanLimit}
    (hf : Filled maxRecords maxBytes matching entries limit)
    (hfits : Affordable maxRecords maxBytes entries) : Longest maxRecords maxBytes matching entries := by
  cases hf with
  | all heq =>
    subst heq
    exact ⟨prefix_refl _, hfits, fun run hrun _ => hrun⟩
  | records r rest hm hlen =>
    refine ⟨⟨r :: rest, hm.symm⟩, hfits, fun run hrun hafford => ?_⟩
    refine prefix_of_not_next hm hrun fun hnext => ?_
    have hlong := (hafford.of_prefix hnext).1
    rw [length_append, length_singleton] at hlong
    omega
  | bytes r rest hm hlen hover =>
    refine ⟨⟨r :: rest, hm.symm⟩, hfits, fun run hrun hafford => ?_⟩
    refine prefix_of_not_next hm hrun fun hnext => ?_
    exact absurd (hafford.of_prefix hnext).2 (Nat.not_le.mpr hover)

theorem Filled.limit_eq {matching entries : Found} {limit : Option ScanLimit}
    (hf : Filled maxRecords maxBytes matching entries limit) :
    limit = limitFor maxRecords matching entries := by
  unfold limitFor
  cases hf with
  | all heq =>
    subst heq
    exact (if_pos rfl).symm
  | records r rest hm hlen =>
    subst hm
    have hne : ¬ entries.length = (entries ++ r :: rest).length := by
      rw [length_append, length_cons]
      omega
    rw [if_neg hne, if_pos hlen]
  | bytes r rest hm hlen hover =>
    subst hm
    have hne : ¬ entries.length = (entries ++ r :: rest).length := by
      rw [length_append, length_cons]
      omega
    rw [if_neg hne, if_neg hlen]

/-! ## §2. The bounded pager -/

theorem Stored.len_leafValue (v : Stored) : v.leafValue.len = v.bytes.length := by
  obtain ⟨bytes, pages⟩ := v
  cases pages <;> rfl

/-- What a bounded scan does with a record, as a function. -/
def lookBounded (lead start : Bytes) (maxRecords maxBytes : Nat) (out : ScanBatch × Nat)
    (r : Bytes × Stored) : (ScanBatch × Nat) × Bool :=
  if r.1 < start then (out, false)
  else if ¬ lead.isPrefixOf r.1 then (out, true)
  else if out.1.entries.length = maxRecords then
    (({ out.1 with limit := some .records }, out.2), true)
  else if maxBytes < out.2 + (r.1.length + r.2.bytes.length) then
    (({ out.1 with limit := some .bytes }, out.2), true)
  else
    (({ out.1 with entries := out.1.entries ++ [Stored.record r] },
      out.2 + (r.1.length + r.2.bytes.length)), false)

theorem visitBounded_returns (s : Session) (out : ScanBatch × Nat) (r : Bytes × Stored)
    (hv : r.2.Legible s.pager) :
    Returns Session.Clear (visitBounded lead start maxRecords maxBytes out (r.1, r.2.leafValue)) s
      fun a s' => a = lookBounded lead start maxRecords maxBytes out r ∧ s.Quiet s' := by
  unfold visitBounded lookBounded
  dsimp only
  rw [Stored.len_leafValue]
  by_cases hlt : r.1 < start
  · rw [if_pos hlt, if_pos hlt]
    exact Returns.pure ⟨rfl, Session.Quiet.refl s⟩
  rw [if_neg hlt, if_neg hlt]
  by_cases hlead : ¬ lead.isPrefixOf r.1 = true
  · rw [if_pos hlead, if_pos hlead]
    exact Returns.pure ⟨rfl, Session.Quiet.refl s⟩
  rw [if_neg hlead, if_neg hlead]
  by_cases hfull : out.1.entries.length = maxRecords
  · rw [if_pos hfull, if_pos hfull]
    exact Returns.pure ⟨rfl, Session.Quiet.refl s⟩
  rw [if_neg hfull, if_neg hfull]
  by_cases hover : maxBytes < out.2 + (r.1.length + r.2.bytes.length)
  · rw [if_pos hover, if_pos hover]
    exact Returns.pure ⟨rfl, Session.Quiet.refl s⟩
  rw [if_neg hover, if_neg hover]
  refine (pushRecord_returns hv).bind ?_
  rintro entries u ⟨rfl, hq⟩
  exact Returns.pure ⟨rfl, hq⟩

/-- A bounded sweep fills its batch from the matching records. -/
theorem sweep_bounded (good : Bytes → Bool)
    (hgood : ∀ k, good k = (!decide (k < start) && lead.isPrefixOf k)) :
    ∀ (ahead : List (Bytes × Stored)) (entries : Found),
      HaltsPast (fun r => !decide (r.1 < start) && !lead.isPrefixOf r.1) (fun r => good r.1) ahead →
      Affordable maxRecords maxBytes entries →
      ∃ taken limit used, (sweep (lookBounded lead start maxRecords maxBytes) ahead
          (⟨entries, none⟩, payload entries)).1 = (⟨taken, limit⟩, used)
        ∧ Affordable maxRecords maxBytes taken
        ∧ Filled maxRecords maxBytes
          (entries ++ (ahead.filter fun r => good r.1).map Stored.record) taken limit := by
  intro ahead
  induction ahead with
  | nil =>
    intro entries _ hfits
    exact ⟨entries, none, payload entries, rfl, hfits, .all (append_nil entries)⟩
  | cons r ahead ih =>
    intro entries hpast hfits
    have ih' := fun entries => ih entries (pairwise_cons.mp hpast).2
    unfold sweep
    rw [filter_cons]
    generalize hlook : lookBounded lead start maxRecords maxBytes (⟨entries, none⟩, payload entries) r
      = out
    unfold lookBounded at hlook
    by_cases hlt : r.1 < start
    · -- before the start: passed over
      rw [if_pos hlt] at hlook
      subst hlook
      rw [show good r.1 = false by simp [hgood, hlt]]
      exact ih' entries hfits
    rw [if_neg hlt] at hlook
    cases hlead : lead.isPrefixOf r.1 with
    | false =>
      -- past the leading bytes: nothing that matches follows
      rw [if_pos (by simp [hlead])] at hlook
      subst hlook
      have hnil : ahead.filter (fun r => good r.1) = [] :=
        hpast.filter_eq_nil (by simp [hlead, not_lt.mp hlt])
      rw [show good r.1 = false by simp [hgood, hlead], hnil]
      exact ⟨entries, none, payload entries, rfl, hfits, .all (append_nil entries)⟩
    | true =>
      have hgood' : good r.1 = true := by simp [hgood, hlead, not_lt.mp hlt]
      rw [hgood', if_pos rfl, map_cons]
      rw [if_neg (by simp [hlead])] at hlook
      by_cases hfull : entries.length = maxRecords
      · rw [if_pos hfull] at hlook
        subst hlook
        exact ⟨entries, some .records, payload entries, rfl, hfits, .records _ _ rfl hfull⟩
      rw [if_neg hfull] at hlook
      by_cases hover : maxBytes < payload entries + (r.1.length + r.2.bytes.length)
      · rw [if_pos hover] at hlook
        subst hlook
        refine ⟨entries, some .bytes, payload entries, rfl, hfits, .bytes _ _ rfl hfull ?_⟩
        rw [payload_append, payload_singleton]
        exact hover
      · have hout : out = ((⟨entries ++ [Stored.record r], none⟩,
            payload (entries ++ [Stored.record r])), false) := by
          rw [if_neg hover] at hlook
          rw [← hlook, payload_append, payload_singleton]
          rfl
        have hfits' : Affordable maxRecords maxBytes (entries ++ [Stored.record r]) := by
          refine ⟨?_, ?_⟩
          · have := hfits.1
            rw [length_append, length_singleton]
            omega
          · rw [payload_append, payload_singleton]
            show payload entries + (r.1.length + r.2.bytes.length) ≤ maxBytes
            omega
        rw [append_cons, hout, if_neg Bool.false_ne_true]
        exact ih' (entries ++ [Stored.record r]) hfits'

/-- The records both pagers are about. -/
def Image.matching (i : Image) (lead start : Bytes) : Found :=
  within lead.isPrefixOf (since start i.records)

theorem clamped_matching (k : Bytes) : (!decide (k < max start lead) && lead.isPrefixOf k)
      = (atLeast start k && lead.isPrefixOf k) := by
  cases hlead : lead.isPrefixOf k with
  | false => simp
  | true =>
    have hle : lead ≤ k := prefix_le (List.isPrefixOf_iff_prefix.mp hlead)
    have hmax : max start lead ≤ k ↔ start ≤ k :=
      ⟨fun h => (le_max_left start lead).trans h, fun h => max_le h hle⟩
    rw [Bool.eq_iff_iff]
    simpa using hmax

/-- **The bounded pager returns the longest run within its budgets**, and says
    which of them left a record out. -/
theorem collectPrefixBatchBounded_returns (hr : Readable s i) (lead start : Bytes)
    (maxRecords maxBytes : Nat) :
    Returns Session.Clear (collectPrefixBatchBounded lead start maxRecords maxBytes) s
      fun batch s' => Longest maxRecords maxBytes (i.matching lead start) batch.entries
        ∧ batch.limit = limitFor maxRecords (i.matching lead start) batch.entries ∧ s.Quiet s' := by
  have hnothing : Affordable maxRecords maxBytes [] := ⟨Nat.zero_le _, Nat.zero_le _⟩
  cases i with
  | empty =>
    refine hr.empty_returns.weaken ?_
    rintro batch u ⟨rfl, hq⟩
    exact ⟨⟨prefix_refl _, hnothing, fun run hrun _ => hrun⟩, rfl, hq⟩
  | tree t =>
    unfold collectPrefixBatchBounded
    refine Returns.get ?_
    rw [if_neg hr.root_ne_zero]
    dsimp only
    rw [← bind_assoc]
    refine ((forward_visits visitBounded_returns).from_key hr (fun _ _ => rfl) (max start lead)
      (⟨[], none⟩, 0)).bind ?_
    rintro _ u ⟨hq, behind, ahead, hsplit, hbehind, rfl⟩
    -- what matches ahead of the scan is all that matches
    have hmatch : (Image.tree t).matching lead start = (ahead.filter fun r =>
        !decide (r.1 < max start lead) && lead.isPrefixOf r.1).map Stored.record := by
      rw [← records_filter (fun k => !decide (k < max start lead) && lead.isPrefixOf k) hsplit
        fun x hx => by simp [hbehind x hx]]
      unfold Image.matching within
      rw [since_eq_within]
      unfold within
      rw [filter_filter]
      refine filter_congr fun r _ => ?_
      rw [Bool.and_comm]
      exact (clamped_matching r.1).symm
    have hpast : HaltsPast (fun r => !decide (r.1 < max start lead) && !lead.isPrefixOf r.1)
        (fun r => !decide (r.1 < max start lead) && lead.isPrefixOf r.1) ahead := by
      refine haltsPast_of_ascending (fun k => !decide (k < max start lead) && !lead.isPrefixOf k)
        (fun k => !decide (k < max start lead) && lead.isPrefixOf k) hr hsplit
        fun j k hjk hj => ?_
      have hj : ¬ j < max start lead ∧ lead.isPrefixOf j = false := by simpa using hj
      cases hp : lead.isPrefixOf k with
      | false => simp
      | true =>
        have hle : lead ≤ j := le_trans (le_max_right start lead) (not_lt.mp hj.1)
        rw [isPrefixOf_of_between hle hjk hp] at hj
        cases hj.2
    obtain ⟨taken, limit, used, hsweep, hfits, hfilled⟩ := sweep_bounded
      (fun k => !decide (k < max start lead) && lead.isPrefixOf k) (fun _ => rfl) ahead []
      hpast hnothing
    have hsweep : (sweep (lookBounded lead (max start lead) maxRecords maxBytes) ahead
        (⟨[], none⟩, 0)).1 = (⟨taken, limit⟩, used) := hsweep
    rw [hsweep]
    rw [nil_append, ← hmatch] at hfilled
    exact Returns.pure ⟨hfilled.longest hfits, hfilled.limit_eq, hq⟩

/-! ## §3. The cut batch -/

theorem collectPrefixBatchFrom_returns (hr : Readable s i) (lead start : Bytes) (limit : Nat) :
    Returns Session.Clear (collectPrefixBatchFrom lead start limit) s fun r s' =>
      r = ((since start i.records).take limit).takeWhile (fun r => lead.isPrefixOf r.1)
        ∧ s.Quiet s' := by
  unfold collectPrefixBatchFrom
  refine (collectBatchFrom_returns hr start limit).bind ?_
  rintro batch u ⟨rfl, hq⟩
  exact Returns.pure ⟨rfl, hq⟩

/-- No key lies between the start and the leading bytes. -/
def Image.ClearOf (i : Image) (lead start : Bytes) : Prop :=
  ∀ r ∈ i.records, start ≤ r.1 → lead ≤ r.1

theorem cut_batch_eq {records : Found} (hasc : Ascending records)
    (hclear : ∀ r ∈ records, start ≤ r.1 → lead ≤ r.1) (limit : Nat) :
    ((since start records).take limit).takeWhile (fun r => lead.isPrefixOf r.1)
      = (within lead.isPrefixOf (since start records)).take limit := by
  rw [takeWhile_take, takeWhile_eq_within lead _ (hasc.since start)]
  · intro r hr
    obtain ⟨hmem, hle⟩ := mem_since.mp hr
    exact hclear r hmem hle
  · intro j k hj hjk hk
    exact isPrefixOf_of_between hj hjk hk

/-- A key between the start and the leading bytes leaves nothing of the batch. -/
theorem cut_batch_eq_nil {records : Found} {r : Bytes × Bytes} (hasc : Ascending records)
    (hr : r ∈ records) (hstart : start ≤ r.1) (hlead : r.1 < lead) (limit : Nat) :
    ((since start records).take limit).takeWhile (fun r => lead.isPrefixOf r.1) = [] := by
  have hmem : r ∈ since start records := mem_since.mpr ⟨hr, hstart⟩
  have hasc := hasc.since start
  cases hsince : since start records with
  | nil =>
    rw [hsince] at hmem
    cases hmem
  | cons x rest =>
    rw [hsince] at hmem hasc
    have hle : x.1 ≤ r.1 := by
      rcases mem_cons.mp hmem with rfl | hrest
      · exact le_refl _
      · exact le_of_lt ((pairwise_cons.mp hasc).1 r hrest)
    cases limit with
    | zero => rfl
    | succ limit => rw [take_succ_cons, takeWhile_cons, isPrefixOf_of_lt (hle.trans_lt hlead)]; rfl

/-- **When the cut batch is the batch of matches.** -/
theorem Image.cut_batch_eq_iff {i : Image} (hasc : Ascending i.records) (lead start : Bytes)
    (limit : Nat) :
    ((since start i.records).take limit).takeWhile (fun r => lead.isPrefixOf r.1)
        = (i.matching lead start).take limit
      ↔ limit = 0 ∨ i.ClearOf lead start ∨ i.matching lead start = [] := by
  constructor
  · intro heq
    by_cases hclear : i.ClearOf lead start
    · exact Or.inr (Or.inl hclear)
    unfold Image.ClearOf at hclear
    push Not at hclear
    obtain ⟨r, hr, hstart, hlead⟩ := hclear
    rw [cut_batch_eq_nil hasc hr hstart hlead limit, eq_comm, take_eq_nil_iff] at heq
    exact heq.imp_right Or.inr
  · rintro (rfl | hclear | hnone)
    · rfl
    · exact cut_batch_eq hasc hclear limit
    · rw [hnone, take_nil]
      refine takeWhile_eq_nil_iff.mpr fun hlen hlead => ?_
      have hmem := mem_of_mem_take (getElem_mem hlen)
      have hmatch : ((since start i.records).take limit)[0] ∈ i.matching lead start :=
        mem_filter.mpr ⟨hmem, hlead⟩
      rw [hnone] at hmatch
      cases hmatch

/-- **The two pagers.**  The bounded pager meets its specification for every start.
    What the other one returns is the batch of matches exactly when no record is asked
    for, no key lies between `start` and `lead`, or nothing matches at all. -/
theorem prefix_pagers_agree (hr : Readable s i) (lead start : Bytes) : (∀ maxRecords maxBytes,
        Returns Session.Clear (collectPrefixBatchBounded lead start maxRecords maxBytes) s
          fun batch _ => Longest maxRecords maxBytes (i.matching lead start) batch.entries
            ∧ batch.limit = limitFor maxRecords (i.matching lead start) batch.entries)
      ∧ (∀ limit, Returns Session.Clear (collectPrefixBatchFrom lead start limit) s
          fun r _ => r = (i.matching lead start).take limit
            ↔ limit = 0 ∨ i.ClearOf lead start ∨ i.matching lead start = [])
      ∧ ∀ limit maxBytes, payload (i.matching lead start) ≤ maxBytes →
          Returns Session.Clear (collectPrefixBatchBounded lead start limit maxBytes) s
            fun batch _ => batch.entries = (i.matching lead start).take limit := by
  refine ⟨fun maxRecords maxBytes => ?_, fun limit => ?_, fun limit maxBytes hbytes => ?_⟩
  · refine (collectPrefixBatchBounded_returns hr lead start maxRecords maxBytes).weaken ?_
    rintro batch u ⟨hlongest, hlimit, -⟩
    exact ⟨hlongest, hlimit⟩
  · refine (collectPrefixBatchFrom_returns hr lead start limit).weaken ?_
    rintro r u ⟨rfl, -⟩
    exact Image.cut_batch_eq_iff hr.records_ascending lead start limit
  · refine (collectPrefixBatchBounded_returns hr lead start limit maxBytes).weaken ?_
    rintro batch u ⟨hlongest, -, -⟩
    -- with bytes to spare, the longest run is as many records as allowed
    have hrun : (i.matching lead start).take limit <+: batch.entries := by
      refine hlongest.longest _ (List.take_prefix _ _) ⟨length_take_le _ _, ?_⟩
      have hsplit := payload_append ((i.matching lead start).take limit)
        ((i.matching lead start).drop limit)
      rw [take_append_drop] at hsplit
      omega
    refine (hrun.eq_of_length_le ?_).symm
    have hfront := hlongest.front.length_le
    have hfits := hlongest.fits.1
    rw [length_take]
    omega

/-- **A key below the leading bytes hides the records that have them.**  With the
    keys `[1]` and `[6]` stored, the batch from `[0]` on begins with `[1]`, and the
    cut leaves nothing of it; the bounded pager finds `[6]`. -/
theorem key_before_lead_hides_matches :
    let base : Session := { BTree.open 4096 0 4 none with
      pager := ⟨[], [], [], []⟩, cache := [], consumed := [] }
    let ops : List TreeOp := [.put [1] [7], .put [6] [9]]
    value? ((do
        runOps HashOrder.stable ops
        collectPrefixBatchFrom [6] [0] 10) base) = some []
      ∧ value? ((do
        runOps HashOrder.stable ops
        collectPrefixBatchBounded [6] [0] 10 100) base) = some ⟨[([6], [9])], none⟩ := by
  decide +kernel

/-- The pagers on a tree with keys on both sides of the leading bytes. -/
theorem prefix_pagers_agree_mixed : mixedImage.ClearOf [2] [2]
    ∧ Returns Session.Clear (collectPrefixBatchFrom [2] [2] 5) mixedSession
        (fun r _ => r = [([2], [8])])
    ∧ Returns Session.Clear (collectPrefixBatchBounded [2] [] 5 100) mixedSession
        (fun batch _ => batch.entries = [([2], [8])]) := by
  have hclear : mixedImage.ClearOf [2] [2] := fun r _ hle => hle
  have hboth := prefix_pagers_agree mixedSession_readable [2]
  have hfrom := ((hboth [2]).2.1 5).weaken fun r _ hiff => hiff.mpr (Or.inr (Or.inl hclear))
  exact ⟨hclear, hfrom, (hboth []).2.2 5 100 (by decide)⟩

end Pagedb
