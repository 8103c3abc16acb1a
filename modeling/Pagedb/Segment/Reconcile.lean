/-
  Pagedb.Segment.Reconcile — the catalog check of an open (`recovery/reconcile.rs`,
  `txn/db/catalog/counters.rs`).

  An open streams the segment rows in batches, decodes each meta, checks the row
  key against it and authenticates the file it names.  A file that does not
  authenticate keeps its row; a row whose key and meta disagree stops the open.

  Main results:
    * `verifyCatalogEntries_eq` — the batches visit every segment row once;
    * `committed_store_reopens` — a store whose segments were created in its own
      realm reopens and keeps every row;
    * `foreign_realm_row_stops_open` — one linked from another realm does not.
-/
import Pagedb.Catalog.Rows

namespace Pagedb.Segment

open Lib List

variable {MK : Type}

/-! ## §1. The check of one row -/

/-- The segment files of a store: `seg/.staging/<id>`, `seg/<id>` and
    `seg/.tombstone/<id>.<commit>`. -/
structure SegmentDir where
  staging : List (SegmentId × Bytes)
  live : List (SegmentId × Bytes)
  tombstones : List ((SegmentId × CommitId) × Bytes)

/-- The error is a verdict about the file's bytes: `Corruption` other than
    `ForeignSegment`, `ChecksumFailure`, `MissingPersistedKey`. -/
def FileError.verdictOnTheFile : FileError → Bool
  | .geometryInvalid _ | .metadataMismatch _ | .catalogRowInvalid _ | .structuralHeaderInvalid _ _
  | .footerFramingInvalid _ | .footerUnverifiable | .manifestUnverifiable | .pageUnverifiable _
  | .segmentMissing | .checksumFailure | .missingPersistedKey => true
  | _ => false

/-- `keep_row_for_the_embedder`. -/
def keepRowForTheEmbedder {α : Type} : Except FileError α → Except FileError Bool
  | .ok _ => .ok true
  | .error e => if e.verdictOnTheFile then .ok false else .error e

/-- `authenticate_row`: the row's segment, and the staged file it would promote. -/
def authenticateRow (p : SegmentPager MK) (dir : SegmentDir) (row : Bytes × Bytes) :
    Except FileError (SegmentId × Option SegmentId) := do
  let m ← decodeSegmentMeta row.2
  let _ ← validateSegmentKey row.1 m
  match find m.segmentId dir.live with
  | some file => do
    let _ ← keepRowForTheEmbedder (authenticateSegmentMetadata p file m p.fileId)
    pure (m.segmentId, none)
  | none =>
    match find m.segmentId dir.staging with
    | none => throw .segmentMissing
    | some file => do
      let verified ← keepRowForTheEmbedder (authenticateSegmentMetadata p file m p.fileId)
      pure (m.segmentId, if verified then some m.segmentId else none)

/-! ## §2. All rows -/

/-- `SEGMENT_ROW_BATCH`. -/
def SEGMENT_ROW_BATCH : Nat := 256

/-- `COUNTER_ROW_BATCH`. -/
def COUNTER_ROW_BATCH : Nat := 512

/-- The rows of one kind: its byte is in front of the key. -/
def ofKind (kind : UInt8) (key : Bytes) : Bool := [kind].isPrefixOf key

/-- `collect_prefix_batch_from` with a kind as its prefix, on the rows of the
    catalog tree. -/
def collectKindBatch (rows : Rows) (kind : UInt8) (limit : Nat) (start : Bytes) : Rows :=
  ((since start rows).take limit).takeWhile fun r => ofKind kind r.1

/-- The loop both checks of an open run over the rows of a kind.  A batch that is
    not empty moves the cursor, so the rows bound the turns. -/
def streamKind {α : Type} (rows : Rows) (kind : UInt8) (limit : Nat)
    (visit : α → Bytes × Bytes → Except FileError α) (acc : α) : Except FileError α :=
  streamPages (collectKindBatch rows kind limit) (fun k => k ++ [0]) limit .diverges visit
    (rows.length + 1) [kind] acc

/-- What `verify_catalog_entries` gathers: the ids of the rows, and the staged
    files to promote. -/
structure Verified where
  expected : List SegmentId
  promotions : List SegmentId

/-- One row of `verify_catalog_entries`. -/
def verifyRow (p : SegmentPager MK) (dir : SegmentDir) (acc : Verified) (row : Bytes × Bytes) :
    Except FileError Verified := do
  let (id, promotion) ← authenticateRow p dir row
  pure ⟨acc.expected ++ [id], acc.promotions ++ promotion.toList⟩

/-- The walk of `verify_catalog_entries`. -/
def verifyCatalogEntries (p : SegmentPager MK) (dir : SegmentDir) (rows : Rows) :
    Except FileError Verified :=
  streamKind rows 0x01 SEGMENT_ROW_BATCH (verifyRow p dir) ⟨[], []⟩

/-- `vfs.rename(staging, live)`. -/
def SegmentDir.promote (dir : SegmentDir) (id : SegmentId) : Except FileError SegmentDir :=
  match find id dir.staging with
  | some file => .ok { dir with
      staging := dropRecord id dir.staging
      live := (id, file) :: dropRecord id dir.live }
  | none => .error .io

/-- `sweep_orphans`. -/
def sweepOrphans (dir : SegmentDir) (expected : List SegmentId) (recoveryCommit : CommitId) :
    SegmentDir where
  staging := dir.staging.filter fun f => decide (f.1 ∈ expected)
  live := dir.live.filter fun f => decide (f.1 ∈ expected)
  tombstones := dir.tombstones
    ++ (dir.live.filter fun f => decide (f.1 ∉ expected)).map fun f => ((f.1, recoveryCommit), f.2)

/-- `repair_catalog`. -/
def repairCatalog (p : SegmentPager MK) (dir : SegmentDir) (rows : Rows) (recoveryCommit : CommitId) :
    Except FileError SegmentDir := do
  let verified ← verifyCatalogEntries p dir rows
  let dir ← verified.promotions.foldlM SegmentDir.promote dir
  pure (sweepOrphans dir verified.expected recoveryCommit)

/-- `validate_counter_rows`. -/
def validateCounterRows (rows : Rows) : Except FileError Unit :=
  streamKind rows 0x02 COUNTER_ROW_BATCH (fun _ row =>
      match decodeCounter row.2 with
      | some _ => .ok ()
      | none => .error (.catalogRowInvalid "counter.value")) ()

/-- The catalog part of a Standalone open: what it leaves of the files. -/
def openCatalog (p : SegmentPager MK) (dir : SegmentDir) (rows : Rows) (recoveryCommit : CommitId) :
    Except FileError SegmentDir := do
  let dir ← repairCatalog p dir rows recoveryCommit
  validateCounterRows rows
  pure dir

/-! ## §3. The batches -/

theorem ofKind_downFrom (kind : UInt8) : DownFrom (ofKind kind) [kind] := by
  intro j k hj hjk hk
  exact isPrefixOf_iff_prefix.mpr (prefix_of_between (List.isPrefixOf_iff_prefix.mp hk) hj hjk)

/-- **Every row of the kind is visited once, in key order.** -/
theorem streamKind_eq {α : Type} {rows : Rows} {kind : UInt8} {limit : Nat}
    {visit : α → Bytes × Bytes → Except FileError α} {acc : α} (h : Ascending rows)
    (hlimit : 0 < limit) :
    streamKind rows kind limit visit acc = (within (ofKind kind) rows).foldlM visit acc := by
  have hsince : since [kind] (within (ofKind kind) rows) = within (ofKind kind) rows := by
    refine since_eq_self fun r hr => ?_
    exact prefix_le (List.isPrefixOf_iff_prefix.mp (mem_within.mp hr).2)
  have hlen : (within (ofKind kind) rows).length ≤ rows.length := length_filter_le _ _
  have hpage : ∀ c, [kind] ≤ c →
      collectKindBatch rows kind limit c = (since c (within (ofKind kind) rows)).take limit :=
    fun c hc => takeWhile_page (ofKind_downFrom kind) h hc limit
  unfold streamKind
  rw [streamPages_eq (h.within (ofKind kind)) (append_bot_le_iff fun _ => UInt8.zero_le)
    hlimit hpage le_rfl, hsince]
  rw [hsince]
  omega

theorem verifyCatalogEntries_eq {p : SegmentPager MK} {dir : SegmentDir} {rows : Rows}
    (h : Ascending rows) :
    verifyCatalogEntries p dir rows
      = (within (ofKind 0x01) rows).foldlM (verifyRow p dir) ⟨[], []⟩ :=
  streamKind_eq h (by decide)

/-! ## §4. Rows that are kept -/

/-- The row's key and meta agree, and the live file of its id is accepted. -/
structure AcceptedRow (p : SegmentPager MK) (dir : SegmentDir) (row : Bytes × Bytes)
    (m : SegmentMeta) : Prop where
  decodes : decodeSegmentMeta row.2 = .ok m
  key : ∃ name, validateSegmentKey row.1 m = .ok name
  file : ∃ file a, find m.segmentId dir.live = some file
    ∧ authenticateSegmentMetadata p file m p.fileId = .ok a

/-- Every sealed segment that a published row names has its file at its live path. -/
def Intact (s : CatalogStore) (dir : SegmentDir) : Prop :=
  ∀ x ∈ s.sealed, (∃ row ∈ s.published, row.2 = encodeSegmentMeta x.1) →
    find x.1.segmentId dir.live = some x.2

section Kept

variable {p : SegmentPager MK} {s : CatalogStore} {dir : SegmentDir} {rows : Rows}
  {row : Bytes × Bytes} {m : SegmentMeta}

theorem AcceptedRow.authenticateRow (h : AcceptedRow p dir row m) :
    authenticateRow p dir row = .ok (m.segmentId, none) := by
  obtain ⟨name, hkey⟩ := h.key
  obtain ⟨file, a, hfind, hauth⟩ := h.file
  unfold Segment.authenticateRow
  rw [ok_bind h.decodes, ok_bind hkey, hfind]
  dsimp only
  rw [hauth]
  rfl

/-- The walk over accepted rows promotes nothing and expects every id. -/
theorem verifyRows_accepted (h : ∀ row ∈ rows, ∃ m, AcceptedRow p dir row m) (acc : Verified) :
    ∃ ids, rows.foldlM (verifyRow p dir) acc = .ok ⟨acc.expected ++ ids, acc.promotions⟩
      ∧ ∀ row ∈ rows, ∀ m, AcceptedRow p dir row m → m.segmentId ∈ ids := by
  induction rows generalizing acc with
  | nil =>
    refine ⟨[], ?_, nofun⟩
    rw [append_nil]
    rfl
  | cons row rows ih =>
    obtain ⟨m, hm⟩ := h row mem_cons_self
    have hrow : verifyRow p dir acc row = .ok ⟨acc.expected ++ [m.segmentId], acc.promotions⟩ := by
      unfold verifyRow
      rw [ok_bind hm.authenticateRow]
      show Except.ok (⟨acc.expected ++ [m.segmentId], acc.promotions ++ []⟩ : Verified) = _
      rw [append_nil]
    obtain ⟨ids, hids, hmem⟩ := ih (fun r hr => h r (mem_cons_of_mem row hr))
      ⟨acc.expected ++ [m.segmentId], acc.promotions⟩
    refine ⟨m.segmentId :: ids, ?_, ?_⟩
    · rw [foldlM_cons, ok_bind hrow, hids, append_assoc]
      rfl
    · intro r hr m' hm'
      rcases mem_cons.mp hr with rfl | hr
      · have heq : m' = m := Except.ok.inj (hm'.decodes.symm.trans hm.decodes)
        rw [heq]
        exact mem_cons_self
      · exact mem_cons_of_mem _ (hmem r hr m' hm')

theorem find_sweepOrphans {expected : List SegmentId} {c : CommitId} {id : SegmentId}
    (hid : id ∈ expected) : find id (sweepOrphans dir expected c).live = find id dir.live := by
  unfold sweepOrphans find
  dsimp only
  induction dir.live with
  | nil => rfl
  | cons f files ih =>
    by_cases hf : f.1 ∈ expected
    · by_cases heq : f.1 = id
      · simp [heq, hid]
      · simpa [hf, heq] using ih
    · have hne : f.1 ≠ id := fun heq => hf (heq ▸ hid)
      simpa [hf, hne] using ih

/-- A segment row of an intact store is accepted. -/
theorem CatalogInv.accepted (h : CatalogInv p s) (hdir : Intact s dir) (hrow : row ∈ s.published)
    (hkind : ofKind 0x01 row.1 = true) : ∃ m, AcceptedRow p dir row m := by
  have hok := h.published.rows row hrow
  cases hok with
  | quota r q => exact absurd hkind (by simp [ofKind, quotaKey])
  | counter name value => exact absurd hkind (by simp [ofKind])
  | @segment name m file hname hrealm hsealed =>
    obtain ⟨hrange, a, hauth⟩ := h.sealed (m, file) hsealed
    refine ⟨m, decodeSegmentMeta_encode hrange, ⟨name, validateSegmentKey_own hname hrealm⟩,
      file, a, ?_, hauth⟩
    exact hdir (m, file) hsealed ⟨_, hrow, rfl⟩

/-- The counters of a store decode. -/
theorem CatalogInv.counters (h : CatalogInv p s) : validateCounterRows s.published = .ok () := by
  unfold validateCounterRows
  rw [streamKind_eq h.published.ascending (by decide)]
  have hrows : ∀ row ∈ within (ofKind 0x02) s.published, decodeCounter row.2 ≠ none := by
    intro row hrow
    obtain ⟨hmem, hkind⟩ := mem_within.mp hrow
    have hok := h.published.rows row hmem
    cases hok with
    | quota r q => exact absurd hkind (by simp [ofKind, quotaKey])
    | segment hname hrealm hsealed => exact absurd hkind (by simp [ofKind, segmentRowKey])
    | counter name value => simp [decodeCounter, encodeCounter]
  generalize within (ofKind 0x02) s.published = rows at hrows
  induction rows with
  | nil => rfl
  | cons row rows ih =>
    obtain ⟨value, hvalue⟩ := Option.ne_none_iff_exists'.mp (hrows row mem_cons_self)
    rw [foldlM_cons, ok_bind (by rw [hvalue])]
    exact ih fun r hr => hrows r (mem_cons_of_mem row hr)

/-- **An intact store reopens.** -/
theorem CatalogInv.opens (h : CatalogInv p s) (hdir : Intact s dir) (c : CommitId) :
    ∃ dir', openCatalog p dir s.published c = .ok dir'
      ∧ ∀ row ∈ s.published, ofKind 0x01 row.1 = true →
        ∃ m, AcceptedRow p dir row m ∧ AcceptedRow p dir' row m := by
  obtain ⟨ids, hverify, hids⟩ := verifyRows_accepted
    (fun row hrow => h.accepted hdir (mem_within.mp hrow).1 (mem_within.mp hrow).2) ⟨[], []⟩
  rw [← verifyCatalogEntries_eq h.published.ascending] at hverify
  have hrepair : repairCatalog p dir s.published c = .ok (sweepOrphans dir ids c) := by
    unfold repairCatalog
    rw [ok_bind hverify]
    rfl
  refine ⟨sweepOrphans dir ids c, ?_, fun row hrow hkind => ?_⟩
  · unfold openCatalog
    rw [ok_bind hrepair, ok_bind h.counters]
    rfl
  · obtain ⟨m, hm⟩ := h.accepted hdir hrow hkind
    have hid := hids row (mem_within.mpr ⟨hrow, hkind⟩) m hm
    refine ⟨m, hm, hm.decodes, hm.key, ?_⟩
    rw [find_sweepOrphans hid]
    exact hm.file

end Kept

/-! ## §5. Stores that reopen, and one that does not -/

/-- **A committed store reopens.**  If every segment a transaction linked was
    created in the store's own realm, the open accepts every segment row, before
    and after its sweep. -/
theorem committed_store_reopens (p : SegmentPager MK) (realmId : Id16) (calls : List CatalogCall)
    (hcalls : Meets (CatalogStore.step p) (fun s call => call.Public p s ∧ call.OwnRealm s)
      (CatalogStore.fresh realmId) calls)
    (dir : SegmentDir)
    (hdir : Intact (run (CatalogStore.step p) (CatalogStore.fresh realmId) calls) dir)
    (recoveryCommit : CommitId) :
    ∃ dir', openCatalog p dir
        (run (CatalogStore.step p) (CatalogStore.fresh realmId) calls).published recoveryCommit
          = .ok dir'
      ∧ ∀ row ∈ (run (CatalogStore.step p) (CatalogStore.fresh realmId) calls).published,
        ofKind 0x01 row.1 = true → ∃ m, AcceptedRow p dir row m ∧ AcceptedRow p dir' row m := by
  have hinv : CatalogInv p (run (CatalogStore.step p) (CatalogStore.fresh realmId) calls) :=
    run_invariant_of_meets (fun _ _ hs hcall => hs.step hcall.1 hcall.2) calls _
      (catalogInv_fresh p realmId) hcalls
  exact hinv.opens hdir recoveryCommit

/-- The meta of segment 5 of realm 3, with a page, an extent of two pages and a
    manifest. -/
def pagedMeta : SegmentMeta where
  segmentId := 5
  realmId := 3
  totalBytes := 24576
  mkEpoch := 0
  segmentKind := .unspecified
  parentFileId := 7
  linkedCommit := none
  pageCount := 6
  finalCounter := 4
  cipherId := 0
  formatVersion := 1
  evictable := .authoritative

theorem pagedMeta_inRange : pagedMeta.InRange := by
  constructor <;> decide +kernel

/-- Seal that segment in realm 3, link it as `a` and as `b`, set a counter and commit. -/
def linkPaged : List CatalogCall :=
  [.createAndSeal 3 5 .unspecified .completes plainCalls cleanSeal, .beginWrite,
    .linkSegment [0x61] pagedMeta, .linkSegment [0x62] pagedMeta, .setCounter [0x63] 9, .commit]

/-- The rows of a store of realm `realm` after these calls. -/
def pagedRows (realm : RealmId) : Rows :=
  [(segmentRowKey realm [0x61], encodeSegmentMeta pagedMeta),
    (segmentRowKey realm [0x62], encodeSegmentMeta pagedMeta), (0x02 :: [0x63], encodeCounter 9)]

theorem createAndSeal_paged :
    ∃ file, createAndSeal plainPager 3 5 .unspecified .completes plainCalls cleanSeal
      = .ok (pagedMeta, file) := by
  obtain ⟨m, w, hseal, hm⟩ := exists_of_okThen
    (show okThen (sealSegment plainPager cleanSeal (plainLife plainCalls).writer)
      (fun m _ => decide (m = pagedMeta)) = true by decide +kernel)
  unfold plainLife at hseal
  unfold createAndSeal
  rw [ok_bind createSegment_plain, hseal, of_decide_eq_true hm]
  exact ⟨w.file, rfl⟩

section LinkPaged

variable {file : Bytes} (hfile : createAndSeal plainPager 3 5 .unspecified .completes plainCalls
  cleanSeal = .ok (pagedMeta, file)) {realm : Id16} (hrealm : realm = 3 ∨ realm = 4)

include hfile hrealm

omit hrealm in
theorem step_createPaged (realm : Id16) : (CatalogStore.fresh realm).step plainPager
      (.createAndSeal 3 5 .unspecified .completes plainCalls cleanSeal)
        = ⟨realm, [], none, [(pagedMeta, file)]⟩ := by
  unfold CatalogStore.step
  dsimp only
  rw [hfile]
  rfl

theorem run_linkPaged : run (CatalogStore.step plainPager) (CatalogStore.fresh realm) linkPaged
      = ⟨realm, pagedRows realm.val, none, [(pagedMeta, file)]⟩ := by
  obtain ⟨ha, hb, hcounter⟩ :
      linkSegment realm.val plainPager.mkEpoch [] [0x61] pagedMeta = .ok ((pagedRows realm.val).take 1)
      ∧ linkSegment realm.val plainPager.mkEpoch ((pagedRows realm.val).take 1) [0x62] pagedMeta
        = .ok ((pagedRows realm.val).take 2)
      ∧ setCounter ((pagedRows realm.val).take 2) [0x63] 9 = .ok (pagedRows realm.val) := by
    rcases hrealm with rfl | rfl <;> decide +kernel
  unfold linkPaged
  rw [run_cons, step_createPaged hfile]
  simp only [run_cons, CatalogStore.step, CatalogStore.within, Option.isSome_none,
    Bool.false_eq_true, if_false, ha, hb, hcounter]
  rfl

set_option maxRecDepth 4000 in
/-- The states the calls are taken from. -/
theorem meets_linkPaged {C : CatalogStore → CatalogCall → Prop}
    (hcreate : C (CatalogStore.fresh realm)
      (.createAndSeal 3 5 .unspecified .completes plainCalls cleanSeal))
    (hlink : ∀ s name, s.realmId = realm → (∃ file, (pagedMeta, file) ∈ s.sealed) →
      C s (.linkSegment name pagedMeta))
    (hplain : ∀ s, C s .beginWrite ∧ C s (.setCounter [0x63] 9) ∧ C s .commit) :
    Meets (CatalogStore.step plainPager) C (CatalogStore.fresh realm) linkPaged := by
  refine ⟨hcreate, ?_⟩
  rw [step_createPaged hfile]
  rcases hrealm with rfl | rfl
  all_goals
    exact ⟨(hplain _).1, hlink _ _ rfl ⟨file, mem_cons_self⟩, hlink _ _ rfl ⟨file, mem_cons_self⟩,
      (hplain _).2.1, (hplain _).2.2, trivial⟩

end LinkPaged

theorem public_createPaged (s : CatalogStore) : CatalogCall.Public plainPager s
    (.createAndSeal 3 5 .unspecified .completes plainCalls cleanSeal) := by
  intro w _
  exact ⟨.inl rfl, .inl (by simp [WriterCall.WritesLand]), .inl trivial, trivial⟩

theorem intact_linkPaged (realm : Id16) (file : Bytes) :
    Intact ⟨realm, pagedRows realm.val, none, [(pagedMeta, file)]⟩ ⟨[], [(5, file)], []⟩ := by
  intro x hx _
  rw [mem_singleton.mp hx]
  rfl

/-- The store of realm 3 reopens with its rows. -/
theorem committed_store_reopens_own : ∃ file dir',
    run (CatalogStore.step plainPager) (CatalogStore.fresh 3) linkPaged
      = ⟨3, pagedRows 3, none, [(pagedMeta, file)]⟩
    ∧ openCatalog plainPager ⟨[], [(5, file)], []⟩ (pagedRows 3) 1 = .ok dir'
    ∧ ∀ row ∈ (pagedRows 3).take 2, ∃ m, AcceptedRow plainPager dir' row m := by
  obtain ⟨file, hfile⟩ := createAndSeal_paged
  have hrun := run_linkPaged hfile (.inl rfl)
  have hcalls : Meets (CatalogStore.step plainPager)
      (fun s call => call.Public plainPager s ∧ call.OwnRealm s) (CatalogStore.fresh 3) linkPaged :=
    meets_linkPaged hfile (.inl rfl) ⟨public_createPaged _, trivial⟩
      (fun s _ hs hm => ⟨hm, by rw [CatalogCall.OwnRealm, hs]; rfl⟩)
      fun _ => ⟨⟨trivial, trivial⟩, ⟨trivial, trivial⟩, ⟨trivial, trivial⟩⟩
  obtain ⟨dir', hopen, hrows⟩ := committed_store_reopens plainPager 3 linkPaged hcalls
    ⟨[], [(5, file)], []⟩ (by rw [hrun]; exact intact_linkPaged 3 file) 1
  rw [hrun] at hopen hrows
  refine ⟨file, dir', hrun, hopen, fun row hrow => ?_⟩
  obtain ⟨m, -, hm⟩ := hrows row (mem_of_mem_take hrow) (by revert row; decide +kernel)
  exact ⟨m, hm⟩

/-- The same calls on a store of realm 4: every call succeeds, the file is
    intact, and the next open fails. -/
theorem foreign_realm_row_stops_open : ∃ file,
    createAndSeal plainPager 3 5 .unspecified .completes plainCalls cleanSeal = .ok (pagedMeta, file)
    ∧ linkSegment 4 plainPager.mkEpoch [] [0x61] pagedMeta = .ok ((pagedRows 4).take 1)
    ∧ linkSegment 4 plainPager.mkEpoch ((pagedRows 4).take 1) [0x62] pagedMeta
      = .ok ((pagedRows 4).take 2)
    ∧ run (CatalogStore.step plainPager) (CatalogStore.fresh 4) linkPaged
      = ⟨4, pagedRows 4, none, [(pagedMeta, file)]⟩
    ∧ Meets (CatalogStore.step plainPager) (fun s call => call.Public plainPager s)
      (CatalogStore.fresh 4) linkPaged
    ∧ Intact ⟨4, pagedRows 4, none, [(pagedMeta, file)]⟩ ⟨[], [(5, file)], []⟩
    ∧ ∀ c, openCatalog plainPager ⟨[], [(5, file)], []⟩ (pagedRows 4) c
      = .error (.catalogRowInvalid "segment.key.realm_id") := by
  obtain ⟨file, hfile⟩ := createAndSeal_paged
  refine ⟨file, hfile, by decide +kernel, by decide +kernel, run_linkPaged hfile (.inr rfl),
    meets_linkPaged hfile (.inr rfl) (public_createPaged _) (fun _ _ _ hm => hm)
      fun _ => ⟨trivial, trivial, trivial⟩, intact_linkPaged 4 file, ?_⟩
  intro c
  have hverify : verifyCatalogEntries plainPager ⟨[], [(5, file)], []⟩ (pagedRows 4)
      = .error (.catalogRowInvalid "segment.key.realm_id") := by
    rw [verifyCatalogEntries_eq (by unfold Ascending; decide +kernel)]
    set_option maxRecDepth 4000 in rfl
  unfold openCatalog repairCatalog
  rw [hverify]
  rfl

end Pagedb.Segment
