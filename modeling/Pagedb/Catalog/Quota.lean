/-
  Pagedb.Catalog.Quota — the byte quota of a realm's segments.

  `enforce_segment_bytes_quota` sums the rows under the key prefix of the meta's
  realm.  Every segment row of a store lies under the prefix of the store's own
  realm, whatever realm its meta names: for a meta of that realm the sum covers
  all rows, for any other it covers none.

  Main results:
    * `committedSegmentBytes_eq` — what the check sums in the store's realm;
    * `segment_byte_quota_holds` — a link or replacement stays within the cap;
    * `foreign_metas_exceed_their_quota` — metas of another realm are not counted.
-/
import Pagedb.Segment.Reconcile

namespace Pagedb.Segment

open Lib List

/-! ## §1. Bytes of a realm -/

/-- The row is a segment row. -/
def isSegmentRow (row : Bytes × Bytes) : Bool := ofKind 0x01 row.1

/-- The row is a segment row, and its meta belongs to the realm. -/
def belongsTo (realm : RealmId) (row : Bytes × Bytes) : Bool :=
  match decodeSegmentMeta row.2 with
  | .ok m => isSegmentRow row && decide (m.realmId = realm)
  | .error _ => false

/-- `total_bytes`, summed over the rows picked out. -/
def bytesOf (pick : Bytes × Bytes → Bool) (rows : Rows) : Nat :=
  (rows.map fun row => if pick row then rowBytes row.2 else 0).sum

theorem bytesOf_belongsTo_le (realm : RealmId) (rows : Rows) :
    bytesOf (belongsTo realm) rows ≤ bytesOf isSegmentRow rows := by
  refine sum_le_sum fun row _ => ?_
  unfold belongsTo
  cases decodeSegmentMeta row.2 with
  | error e => exact Nat.zero_le _
  | ok m =>
    cases isSegmentRow row with
    | false => exact Nat.le_refl _
    | true => by_cases hm : m.realmId = realm <;> simp [hm]

/-! ## §2. The check -/

section Check

variable {realm : RealmId} {rows rows' : Rows} {name : Bytes} {m : SegmentMeta}

theorem sum_of_foldlM (pick : Bytes × Bytes → Bool) (rows : Rows) : ∀ {c₀ c : Nat},
    (rows.filter pick).foldlM (fun committed (r : Bytes × Bytes) => do
      let m ← decodeSegmentMeta r.2
      pure (satAdd committed m.totalBytes)) c₀ = .ok c →
    c₀ + bytesOf pick rows ≤ U64_MAX → c = c₀ + bytesOf pick rows := by
  unfold bytesOf
  induction rows with
  | nil =>
    intro c₀ c h _
    cases h
    rfl
  | cons r rows ih =>
    intro c₀ c h hfit
    cases hpick : pick r with
    | false =>
      simp only [filter_cons, map_cons, sum_cons, hpick, Bool.false_eq_true,
        if_false, Nat.zero_add] at h hfit ⊢
      exact ih h hfit
    | true =>
      simp only [filter_cons, map_cons, sum_cons, hpick, if_true, foldlM_cons] at h hfit ⊢
      obtain ⟨c₁, hc, h⟩ := except_bind_eq_ok.mp h
      obtain ⟨m, hm, hc⟩ := except_bind_eq_ok.mp hc
      have hrow : rowBytes r.2 = m.totalBytes := by
        unfold rowBytes
        rw [hm]
      cases hc
      -- nothing saturates below the bound
      have hsat : satAdd c₀ m.totalBytes = c₀ + rowBytes r.2 := by
        rw [hrow]
        exact Nat.min_eq_left (by omega)
      rw [ih h (by omega), hsat, Nat.add_assoc]

/-- Every segment row is keyed under the realm. -/
structure KeyedUnder (realm : RealmId) (rows : Rows) : Prop where
  ascending : Ascending rows
  keyed : ∀ r ∈ rows, isSegmentRow r = true → (segmentRowKey realm []).isPrefixOf r.1 = true

/-- **Under the store's realm the check sums every segment row.** -/
theorem committedSegmentBytes_eq {c : Nat} (hk : KeyedUnder realm rows)
    (hfit : bytesOf isSegmentRow rows ≤ U64_MAX) (h : committedSegmentBytes rows realm = .ok c) :
    c = bytesOf isSegmentRow rows := by
  have hfilter : (rows.filter fun r => (segmentRowKey realm []).isPrefixOf r.1)
      = rows.filter isSegmentRow := by
    refine filter_congr fun r hr => Bool.eq_iff_iff.mpr ⟨fun hpre => ?_, hk.keyed r hr⟩
    exact isPrefixOf_iff_prefix.mpr
      ((prefix_append [0x01] _).trans (List.isPrefixOf_iff_prefix.mp hpre))
  unfold committedSegmentBytes at h
  rw [hfilter] at h
  rw [sum_of_foldlM isSegmentRow rows h (by omega), Nat.zero_add]

/-- The row of a cap reads back. -/
theorem decodeRealmQuotas_cap {q : RealmQuotas} {limit : Nat} (hcap : q.maxSegmentBytes = some limit)
    (hlimit : limit ≤ U64_MAX) : ∃ q', decodeRealmQuotas (encodeRealmQuotas q) = .ok q'
      ∧ q'.maxSegmentBytes = some limit := by
  obtain ⟨a, b, c, d⟩ := q
  cases hcap
  have hlen : (encodeRealmQuotas ⟨a, b, c, some limit⟩).length = 33 := by
    simp [encodeRealmQuotas, leBytes_length]
  unfold decodeRealmQuotas
  rw [require_bind hlen]
  refine ⟨_, rfl, ?_⟩
  dsimp only
  have hmask : ((encodeRealmQuotas ⟨a, b, c, some limit⟩).headD 0).toNat.testBit 3 = true := by
    cases a <;> cases b <;> cases c <;> simp [encodeRealmQuotas, RealmQuotas.bit] <;> decide
  have hslice : slice (encodeRealmQuotas ⟨a, b, c, some limit⟩) 25 8 = leBytes 8 limit := by
    unfold slice encodeRealmQuotas
    simp [drop_append, leBytes_length, drop_eq_nil_of_le, take_of_length_le]
  rw [if_pos hmask, hslice, ofLeBytes_leBytes_of_lt (Nat.lt_of_le_of_lt hlimit (by decide))]

theorem SetsSegment.within_cap {q : RealmQuotas} {limit : Nat} (h : SetsSegment realm rows name m rows')
    (hk : KeyedUnder realm rows) (hrealm : m.realmId = realm) (hrange : m.InRange)
    (hquota : find (quotaKey realm) rows = some (encodeRealmQuotas q))
    (hcap : q.maxSegmentBytes = some limit) (hlimit : limit ≤ U64_MAX)
    (hfit : bytesOf isSegmentRow rows + m.totalBytes ≤ U64_MAX) :
    bytesOf isSegmentRow rows' ≤ limit := by
  obtain ⟨q', hq', hcap'⟩ := decodeRealmQuotas_cap hcap hlimit
  have hcheck := h.within_quota
  unfold enforceSegmentBytesQuota at hcheck
  rw [hrealm, hquota] at hcheck
  dsimp only at hcheck
  rw [ok_bind hq', hcap'] at hcheck
  obtain ⟨c, hc, hcheck⟩ := except_bind_eq_ok.mp hcheck
  unfold require at hcheck
  split_ifs at hcheck with hle
  rw [committedSegmentBytes_eq hk (by omega) hc] at hle
  have hnew : rowBytes (encodeSegmentMeta m) = m.totalBytes := by
    unfold rowBytes
    rw [decodeSegmentMeta_encode hrange]
  have hsum : bytesOf isSegmentRow rows' + (find (segmentRowKey realm name) rows).elim 0 rowBytes
      = bytesOf isSegmentRow rows + m.totalBytes := by
    rw [h.rows_eq, ← hnew]
    exact sum_setRecord hk.ascending _
  unfold satAdd at hle
  omega

end Check

/-! ## §3. Runs of a store -/

section Run

variable {MK : Type} {p : SegmentPager MK}

/-- **What one call keeps**: it keys its segment rows under the store's realm. -/
theorem KeyedUnder.step {s : CatalogStore} {call : CatalogCall}
    (h : s.Each (KeyedUnder s.realmId.val)) : (s.step p call).Each (KeyedUnder s.realmId.val) := by
  refine h.step (fun rows r hk hr => ⟨hk.ascending.setRecord r.1 r.2, fun x hx hseg => ?_⟩)
    fun rows key hk => ⟨hk.ascending.dropRecord key, fun x hx =>
      hk.keyed x (mem_of_mem_dropRecord hx)⟩
  rcases mem_setRecord hx with rfl | hx
  · have hown : ∀ name, (segmentRowKey s.realmId.val []).isPrefixOf (segmentRowKey s.realmId.val name)
        = true := fun name => isPrefixOf_iff_prefix.mpr (by simp [segmentRowKey])
    cases hr with
    | link _ => exact hown _
    | replace _ => exact hown _
    | counter name value => exact absurd hseg (by simp [isSegmentRow, ofKind])
    | quota r q => exact absurd hseg (by simp [isSegmentRow, ofKind, quotaKey])
  · exact hk.keyed x hx hseg

theorem keyedUnder_run (p : SegmentPager MK) (realm : Id16) (calls : List CatalogCall) :
    (run (CatalogStore.step p) (CatalogStore.fresh realm) calls).Each (KeyedUnder realm.val) := by
  have hfresh : (CatalogStore.fresh realm).realmId = realm
      ∧ (CatalogStore.fresh realm).Each (KeyedUnder realm.val) :=
    ⟨rfl, ⟨List.Pairwise.nil, nofun⟩, nofun⟩
  refine (run_invariant (I := fun s : CatalogStore => s.realmId = realm
    ∧ s.Each (KeyedUnder realm.val)) ?_ calls _ hfresh).2
  rintro s call ⟨rfl, h⟩
  exact ⟨(CatalogStore.step_sealed p call).1, KeyedUnder.step h⟩

/-- **The byte quota holds.**  After any calls, a link or replacement that returns
    `Ok` with a meta of the store's realm, on rows whose bytes with the new ones do
    not overflow, leaves the rows of that realm within its cap. -/
theorem segment_byte_quota_holds (p : SegmentPager MK) (realm : Id16) (calls : List CatalogCall)
    {rows rows' : Rows} {name : Bytes} {m : SegmentMeta} {q : RealmQuotas} {limit : Nat}
    (htxn : (run (CatalogStore.step p) (CatalogStore.fresh realm) calls).txn = some rows)
    (hcall : linkSegment realm.val p.mkEpoch rows name m = .ok rows'
      ∨ replaceSegment realm.val p.mkEpoch rows name m = .ok rows')
    (hrange : m.InRange) (hrealm : m.realmId = realm.val)
    (hquota : find (quotaKey m.realmId) rows = some (encodeRealmQuotas q))
    (hcap : q.maxSegmentBytes = some limit) (hlimit : limit ≤ U64_MAX)
    (hfit : bytesOf isSegmentRow rows + m.totalBytes ≤ U64_MAX) :
    bytesOf (belongsTo m.realmId) rows' ≤ limit := by
  have hsets : SetsSegment realm.val rows name m rows' :=
    hcall.elim linkSegment_eq_ok replaceSegment_eq_ok
  rw [hrealm] at hquota
  exact (bytesOf_belongsTo_le _ _).trans (hsets.within_cap ((keyedUnder_run p realm calls).txn rows htxn)
    hrealm hrange hquota hcap hlimit hfit)

/-- A cap on the segment bytes alone. -/
def capBytes (limit : Nat) : RealmQuotas := ⟨none, none, none, some limit⟩

/-- Set that cap for realm 3, open a transaction and link a segment of six pages. -/
def capRealm (limit : Nat) : List CatalogCall :=
  [.setRealmQuotas 3 (capBytes limit), .beginWrite, .linkSegment [0x61] pagedMeta]

set_option maxRecDepth 4000 in
/-- The store of realm 3 takes a second segment, and its two rows are within the cap. -/
theorem segment_byte_quota_holds_twice : ∃ rows rows',
    (run (CatalogStore.step plainPager) (CatalogStore.fresh 3) (capRealm 50000)).txn = some rows
    ∧ linkSegment 3 plainPager.mkEpoch rows [0x62] { pagedMeta with segmentId := 6 } = .ok rows'
    ∧ bytesOf (belongsTo 3) rows = 24576 ∧ bytesOf (belongsTo 3) rows' ≤ 50000 := by
  obtain ⟨rows, rows', htxn, hlink, hquota, hone, hfit⟩ : ∃ rows rows',
      (run (CatalogStore.step plainPager) (CatalogStore.fresh 3) (capRealm 50000)).txn = some rows
      ∧ linkSegment 3 plainPager.mkEpoch rows [0x62] { pagedMeta with segmentId := 6 } = .ok rows'
      ∧ find (quotaKey 3) rows = some (encodeRealmQuotas (capBytes 50000))
      ∧ bytesOf (belongsTo 3) rows = 24576 ∧ bytesOf isSegmentRow rows + 24576 ≤ U64_MAX :=
    ⟨_, _, rfl, rfl, rfl, by decide +kernel, by decide +kernel⟩
  refine ⟨rows, rows', htxn, hlink, hone, ?_⟩
  exact segment_byte_quota_holds plainPager 3 (capRealm 50000) htxn (.inl hlink)
    (by constructor <;> decide +kernel) rfl hquota rfl (by decide) hfit

/-- A store of realm 4 takes a second segment of realm 3 past the cap of that realm. -/
theorem foreign_metas_exceed_their_quota : ∃ rows rows',
    (run (CatalogStore.step plainPager) (CatalogStore.fresh 4) (capRealm 30000)).txn = some rows
    ∧ find (quotaKey 3) rows = some (encodeRealmQuotas (capBytes 30000))
    ∧ linkSegment 4 plainPager.mkEpoch rows [0x62] { pagedMeta with segmentId := 6 } = .ok rows'
    ∧ bytesOf (belongsTo 3) rows' = 49152 :=
  ⟨_, _, rfl, rfl, rfl, by decide +kernel⟩

end Run

end Pagedb.Segment
