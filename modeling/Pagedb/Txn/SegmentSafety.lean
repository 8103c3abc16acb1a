/-
  Pagedb.Txn.SegmentSafety — published segments keep their file
  (`txn/write/txn.rs`: link, unlink, replace; `txn/db/segment.rs`).

  Catalog rows are keyed by name and files by segment id, so one id may be named
  twice.  A transaction works on rows and records what its commit does to files;
  the commit does that first and only then publishes the rows.  `CommitSafe` is
  what the source needs at each commit and does not check: no id is kept and
  retired at once.

  Main results:
    * `published_segments_keep_their_file` — in every run whose commits are
      safe, every commit succeeds and every id named by the published rows or
      by a live reader's snapshot has its live file;
    * `relinked_segment_loses_its_file`, a run without that side condition.
-/
import Pagedb.Segment.Reconcile

namespace Pagedb

open Lib List Segment

/-! ## §1. Transactions, readers and the run -/

/-- What a seal returns: the fields fit their widths (`meta_inRange`). -/
abbrev SealedMeta := { m : SegmentMeta // m.InRange }

/-- The segment ids some row names. -/
def rowIds (rows : Rows) : List SegmentId :=
  (rows.filter fun r => ofKind 0x01 r.1).filterMap fun r =>
    (decodeSegmentMeta r.2).toOption.map SegmentMeta.segmentId

/-- A write transaction: its view of the rows and the effects it recorded. -/
structure SegmentTxn where
  rows : Rows
  effects : List SegmentSideEffect
  deriving DecidableEq, Repr

/-- A tracked reader and the rows of its catalog snapshot. -/
structure SegmentReader where
  readerId : Nat
  rows : Rows
  deriving DecidableEq, Repr

/-- The segment side of a `Db`.  `sealedMetas` is what the seals so far returned. -/
structure SegmentDb where
  realmId : RealmId
  mkEpoch : Nat
  store : SegmentStore
  published : Rows
  latestCommitId : CommitId
  readers : List SegmentReader
  readerSeq : Nat
  txn : Option SegmentTxn
  poisoned : Bool
  sealedMetas : List SealedMeta

/-- A store with no segment. -/
def SegmentDb.create (realmId : RealmId) (mkEpoch : Nat) : SegmentDb where
  realmId := realmId
  mkEpoch := mkEpoch
  store := ⟨⟨[], [], []⟩, []⟩
  published := []
  latestCommitId := 0
  readers := []
  readerSeq := 0
  txn := none
  poisoned := false
  sealedMetas := []

/-- `link_segment`. -/
def SegmentTxn.linkSegment (db : SegmentDb) (t : SegmentTxn) (name : Bytes) (m : SealedMeta) :
    Except FileError SegmentTxn := do
  let rows ← Segment.linkSegment db.realmId db.mkEpoch t.rows name m
  return ⟨rows, t.effects ++ [.promote m.val.segmentId]⟩

/-- `unlink_segment`. -/
def SegmentTxn.unlinkSegment (db : SegmentDb) (t : SegmentTxn) (name : Bytes) :
    Except FileError SegmentTxn := do
  let rows ← Segment.unlinkSegment db.realmId t.rows name
  let old ← linkedRow t.rows (segmentRowKey db.realmId name)
  return ⟨rows, t.effects ++ [.tombstone old.segmentId none]⟩

/-- `replace_segment`. -/
def SegmentTxn.replaceSegment (db : SegmentDb) (t : SegmentTxn) (name : Bytes) (m : SealedMeta) :
    Except FileError SegmentTxn := do
  let rows ← Segment.replaceSegment db.realmId db.mkEpoch t.rows name m
  let old ← linkedRow t.rows (segmentRowKey db.realmId name)
  return ⟨rows, t.effects ++ [.tombstone old.segmentId none, .promote m.val.segmentId]⟩

/-- `segment_id_is_reader_pinned`. -/
def SegmentDb.readerPinned (db : SegmentDb) (id : SegmentId) : Bool :=
  db.readers.any fun r => (rowIds r.rows).contains id

/-- The tail of a commit whose header is durable (`finish_durable_commit`): the
    effects run before the rows are published, and a failure poisons the handle. -/
def SegmentDb.commit (db : SegmentDb) (t : SegmentTxn) : SegmentDb :=
  let commit := db.latestCommitId + 1
  match reconcileSegmentEffects db.readerPinned t.effects commit db.store with
  | (store, .ok _) =>
    { db with store := store, published := t.rows, latestCommitId := commit, txn := none }
  | (store, .error _) =>
    { db with store := store, latestCommitId := commit, txn := none, poisoned := true }

/-- What can happen to the segments of one `Db`. -/
inductive SegmentEvent where
  /-- `create_segment` and `seal`, returning `m`. -/
  | createAndSeal (m : SealedMeta)
  | begin
  | link (name : Bytes) (m : SealedMeta)
  | unlink (name : Bytes)
  | replace (name : Bytes) (m : SealedMeta)
  | commit
  | abort
  | setRealmQuotas (realm : RealmId) (quotas : RealmQuotas)
  | beginRead
  | dropReader (readerId : Nat)

/-- A mutator of the open transaction; an error leaves the transaction as it was. -/
def SegmentDb.mutate (db : SegmentDb) (f : SegmentTxn → Except FileError SegmentTxn) : SegmentDb :=
  match db.txn with
  | none => db
  | some t =>
    match f t with
    | .ok t => { db with txn := some t }
    | .error _ => db

/-- One event.  A seal returns a fresh id, link and replace take a meta an
    earlier seal returned, and a poisoned handle admits no new transaction or
    reader. -/
def SegmentDb.step (db : SegmentDb) : SegmentEvent → SegmentDb
  | .createAndSeal m =>
    if m.val.segmentId ∈ db.sealedMetas.map fun m => m.val.segmentId then db
    else
      { db with
        sealedMetas := m :: db.sealedMetas
        store := { db.store with files :=
          { db.store.files with staging := m.val.segmentId :: db.store.files.staging } } }
  | .begin =>
    if db.poisoned ∨ db.txn.isSome then db else { db with txn := some ⟨db.published, []⟩ }
  | .link name m =>
    if m ∈ db.sealedMetas then db.mutate fun t => t.linkSegment db name m else db
  | .unlink name => db.mutate fun t => t.unlinkSegment db name
  | .replace name m =>
    if m ∈ db.sealedMetas then db.mutate fun t => t.replaceSegment db name m else db
  | .commit =>
    match db.txn with
    | none => db
    | some t => db.commit t
  | .abort => { db with txn := none }
  | .setRealmQuotas realm quotas =>
    if db.poisoned ∨ db.txn.isSome then db
    else
      { db with
        published := setRecord (quotaKey realm) (encodeRealmQuotas quotas) db.published
        latestCommitId := db.latestCommitId + 1 }
  | .beginRead =>
    if db.poisoned then db
    else
      { db with
        readers := db.readers ++ [⟨db.readerSeq, db.published⟩]
        readerSeq := db.readerSeq + 1 }
  | .dropReader readerId => { db with readers := db.readers.filter (·.readerId ≠ readerId) }

/-! ## §2. What the effects keep -/

variable {id : SegmentId} {m : SealedMeta} {db : SegmentDb} {t t' : SegmentTxn} {name : Bytes}
  {pinned : SegmentId → Bool} {k : SegmentId}

/-- A retirement of `id` leaves the live file of every other id alone, and of every id
    a reader pins. -/
theorem tombstoneSegment_keeps (s : SegmentStore) (commit : CommitId) :
    let files := (tombstoneSegment pinned s id commit).1.files
    files.staging = s.files.staging
      ∧ (k ∈ s.files.live → pinned k = true ∨ k ≠ id → k ∈ files.live) := by
  unfold tombstoneSegment
  split_ifs with hp ht hl
  · exact ⟨rfl, fun hk _ => hk⟩
  · exact ⟨rfl, fun hk _ => hk⟩
  · refine ⟨rfl, fun hk hsafe => mem_filter.mpr ⟨hk, decide_eq_true ?_⟩⟩
    rintro rfl
    exact hsafe.elim hp fun hne => hne rfl
  · exact ⟨rfl, fun hk _ => hk⟩

/-- The drain keeps every pinned id and every id it took no entry for. -/
theorem drainTaken_keeps (taken : List PendingTombstone) :
    ∀ s : SegmentStore, (drainTaken pinned taken s).files.staging = s.files.staging
      ∧ (k ∈ s.files.live → (pinned k = true ∨ ∀ e ∈ taken, e.segmentId ≠ k) →
        k ∈ (drainTaken pinned taken s).files.live) := by
  induction taken with
  | nil => exact fun s => ⟨rfl, fun hk _ => hk⟩
  | cons e taken ih =>
    intro s
    have hrest : (pinned k = true ∨ ∀ e' ∈ e :: taken, e'.segmentId ≠ k) →
        pinned k = true ∨ ∀ e' ∈ taken, e'.segmentId ≠ k :=
      Or.imp_right fun h e' he' => h e' (mem_cons_of_mem _ he')
    unfold drainTaken
    split_ifs with hp
    · exact ⟨(ih _).1, fun hk hsafe => (ih _).2 hk (hrest hsafe)⟩
    · obtain ⟨hstaging, hlive⟩ := tombstoneSegment_keeps (k := k) s e.commitId
      refine ⟨(ih _).1.trans hstaging, fun hk hsafe => (ih _).2 (hlive hk ?_) (hrest hsafe)⟩
      exact hsafe.imp_right fun h => (h e mem_cons_self).symm

/-- A promotion of an id with a live or a staging file. -/
theorem promoteSegment_ok {f : SegmentFiles} (h : id ∈ f.live ∨ id ∈ f.staging) :
    ∃ f', promoteSegment f id = .ok f' ∧ id ∈ f'.live
      ∧ (∀ k ∈ f.live, k ∈ f'.live) ∧ (∀ k ∈ f.staging, k ∈ f'.live ∨ k ∈ f'.staging) := by
  unfold promoteSegment
  by_cases hl : id ∈ f.live
  · rw [if_pos hl]
    exact ⟨f, rfl, hl, fun k hk => hk, fun k hk => .inr hk⟩
  · have hs : id ∈ f.staging := h.resolve_left hl
    rw [if_neg hl, if_neg (not_not_intro hs)]
    refine ⟨f.publish id, rfl, mem_cons_self, fun k hk => mem_cons_of_mem _ hk, ?_⟩
    intro k hk
    by_cases he : k = id
    · left; rw [he]; exact mem_cons_self
    · right
      show k ∈ f.staging.filter (· ≠ id)
      exact mem_filter.mpr ⟨hk, by simpa using he⟩

/-! ## §3. Effect lists that cannot fail -/

/-- The ids that are tombstoned. -/
def tombstoned (effects : List SegmentSideEffect) : List SegmentId :=
  effects.filterMap fun
    | .tombstone id _ => some id
    | .promote _ => none

/-- Every promotion finds its id available, where an id stops being available
    at a tombstone of it. -/
def PromotesReady : (SegmentId → Prop) → List SegmentSideEffect → Prop
  | _, [] => True
  | avail, .promote id :: effects => avail id ∧ PromotesReady avail effects
  | avail, .tombstone id _ :: effects => PromotesReady (fun k => avail k ∧ k ≠ id) effects

/-- **The effect loop.**  If available ids have a file and every promotion is
    ready, the loop succeeds; it keeps the live files of ids that are pinned or
    never tombstoned, and leaves a live file for every id promoted and never
    tombstoned. -/
theorem applyEffectsFrom_ok (commit : CommitId) :
    ∀ (effects : List SegmentSideEffect) (s : SegmentStore) (deferred : Bool)
      (avail : SegmentId → Prop),
      (∀ k, avail k → k ∈ s.files.live ∨ k ∈ s.files.staging) →
      PromotesReady avail effects →
      ∃ t outcome, applyEffectsFrom pinned commit effects s deferred = (t, .ok outcome)
        ∧ (∀ k ∈ s.files.live, (pinned k = true ∨ k ∉ tombstoned effects) → k ∈ t.files.live)
        ∧ (∀ k, .promote k ∈ effects → k ∉ tombstoned effects → k ∈ t.files.live)
  | [], s, deferred, _, _, _ =>
    ⟨s, _, rfl, fun k hk _ => hk, nofun⟩
  | .promote id :: effects, s, deferred, avail, havail, hready => by
    obtain ⟨f', hf', hid, hlive, hstag⟩ := promoteSegment_ok (havail id hready.1)
    have havail' : ∀ k, avail k → k ∈ f'.live ∨ k ∈ f'.staging := by
      intro k hk
      rcases havail k hk with h | h
      · exact .inl (hlive k h)
      · exact hstag k h
    obtain ⟨t, outcome, heq, hkeep, hprom⟩ :=
      applyEffectsFrom_ok commit effects { s with files := f' } deferred avail havail' hready.2
    refine ⟨t, outcome, ?_, fun k hk => hkeep k (hlive k hk), fun k hk hnt => ?_⟩
    · unfold applyEffectsFrom
      rw [hf']
      exact heq
    · rcases mem_cons.mp hk with he | hk
      · cases he
        exact hkeep _ hid (.inr hnt)
      · exact hprom k hk hnt
  | .tombstone id c :: effects, s, deferred, avail, havail, hready => by
    have hfiles k := @tombstoneSegment_keeps id pinned k s (c.getD commit)
    have havail' : ∀ k, avail k ∧ k ≠ id →
        k ∈ (tombstoneSegment pinned s id (c.getD commit)).1.files.live
          ∨ k ∈ (tombstoneSegment pinned s id (c.getD commit)).1.files.staging := by
      rintro k ⟨hk, hne⟩
      rw [(hfiles k).1]
      exact (havail k hk).imp_left fun h => (hfiles k).2 h (.inr hne)
    obtain ⟨t, outcome, heq, hkeep, hprom⟩ :=
      applyEffectsFrom_ok commit effects (tombstoneSegment pinned s id (c.getD commit)).1
        (deferred || (tombstoneSegment pinned s id (c.getD commit)).2 == .deferred)
        (fun k => avail k ∧ k ≠ id) havail' hready
    have hmem : ∀ k, k ∉ tombstoned (.tombstone id c :: effects) → k ≠ id ∧ k ∉ tombstoned effects :=
      fun k hk => not_or.mp (hk ∘ mem_cons.mpr)
    refine ⟨t, outcome, heq, fun k hk hsafe => ?_, fun k hk hnt => ?_⟩
    · refine hkeep k ((hfiles k).2 hk (hsafe.imp_right fun h => (hmem k h).1)) ?_
      exact hsafe.imp_right fun h => (hmem k h).2
    · rcases mem_cons.mp hk with he | hk
      · cases he
      · exact hprom k hk (hmem k hnt).2

/-! ## §4. The side condition and the invariant -/

/-- No id is kept and retired at once.  An id the transaction's rows still name
    is neither tombstoned by the transaction nor waiting in the deferred queue;
    an id it promotes has its live or staging file, is not waiting in the queue
    and is not tombstoned earlier in the same transaction. -/
def CommitSafe (db : SegmentDb) (t : SegmentTxn) : Prop :=
  (∀ id ∈ rowIds t.rows, id ∉ tombstoned t.effects
    ∧ ∀ p ∈ db.store.pendingTombstones, p.segmentId ≠ id)
  ∧ PromotesReady (fun id => (id ∈ db.store.files.live ∨ id ∈ db.store.files.staging)
      ∧ ∀ p ∈ db.store.pendingTombstones, p.segmentId ≠ id) t.effects

/-- The side condition of a step: its commit, if it is one, is safe. -/
def SegmentStepSafe (db : SegmentDb) : SegmentEvent → Prop
  | .commit => ∀ t, db.txn = some t → CommitSafe db t
  | _ => True

/-- Every id of the rows has its live file. -/
def HasLiveFiles (files : SegmentFiles) (rows : Rows) : Prop := ∀ id ∈ rowIds rows, id ∈ files.live

/-- The invariant of safe runs.  The rows of an open transaction name published
    ids and ids it promotes. -/
structure SegmentInv (db : SegmentDb) : Prop where
  usable : db.poisoned = false
  published : HasLiveFiles db.store.files db.published
  readers : ∀ r ∈ db.readers, HasLiveFiles db.store.files r.rows
  txn : ∀ t, db.txn = some t →
    ∀ id ∈ rowIds t.rows, id ∈ rowIds db.published ∨ .promote id ∈ t.effects

theorem segmentInv_create (realmId : RealmId) (mkEpoch : Nat) :
    SegmentInv (SegmentDb.create realmId mkEpoch) where
  usable := rfl
  published := by intro id hid; cases hid
  readers := by intro r hr; cases hr
  txn := by intro t ht; cases ht

/-! ## §5. The calls of a transaction -/

section Rows

variable {rows : Rows}

theorem mem_rowIds : id ∈ rowIds rows ↔ ∃ r ∈ rows, ofKind 0x01 r.1 = true
    ∧ ∃ m, decodeSegmentMeta r.2 = .ok m ∧ m.segmentId = id := by
  unfold rowIds
  rw [mem_filterMap]
  constructor
  · rintro ⟨r, hr, hid⟩
    obtain ⟨hr, hkind⟩ := mem_filter.mp hr
    obtain ⟨m, hm, rfl⟩ := Option.map_eq_some_iff.mp hid
    refine ⟨r, hr, hkind, m, ?_, rfl⟩
    cases hdecode : decodeSegmentMeta r.2 with
    | ok m' => rw [hdecode] at hm; cases hm; rfl
    | error e => rw [hdecode] at hm; cases hm
  · rintro ⟨r, hr, hkind, m, hm, rfl⟩
    exact ⟨r, mem_filter.mpr ⟨hr, hkind⟩, by rw [hm]; rfl⟩

theorem mem_rowIds_drop {key : Bytes} (h : id ∈ rowIds (dropRecord key rows)) : id ∈ rowIds rows := by
  obtain ⟨r, hr, hid⟩ := mem_rowIds.mp h
  exact mem_rowIds.mpr ⟨r, mem_of_mem_dropRecord hr, hid⟩

theorem mem_rowIds_set {key : Bytes} (h : id ∈ rowIds (setRecord key (encodeSegmentMeta m.val) rows)) :
    id = m.val.segmentId ∨ id ∈ rowIds rows := by
  obtain ⟨r, hr, hkind, m', hm', rfl⟩ := mem_rowIds.mp h
  rcases mem_setRecord hr with rfl | hr
  · rw [decodeSegmentMeta_encode m.property] at hm'
    cases hm'
    exact .inl rfl
  · exact .inr (mem_rowIds.mpr ⟨r, hr, hkind, m', hm', rfl⟩)

theorem mem_rowIds_quota {realm : RealmId} {value : Bytes}
    (h : id ∈ rowIds (setRecord (quotaKey realm) value rows)) : id ∈ rowIds rows := by
  obtain ⟨r, hr, hkind, hid⟩ := mem_rowIds.mp h
  rcases mem_setRecord hr with rfl | hr
  · exact absurd hkind (by simp [ofKind, quotaKey])
  · exact mem_rowIds.mpr ⟨r, hr, hkind, hid⟩

end Rows

/-- The calls record what they did: the transaction keeps its effects, and an id its
    rows name anew is one it promotes. -/
def SegmentTxn.Records (t t' : SegmentTxn) : Prop :=
  (∀ e ∈ t.effects, e ∈ t'.effects)
    ∧ ∀ id ∈ rowIds t'.rows, id ∈ rowIds t.rows ∨ .promote id ∈ t'.effects

theorem linkSegment_records (h : t.linkSegment db name m = .ok t') : t.Records t' := by
  unfold SegmentTxn.linkSegment at h
  obtain ⟨rows, hrows, h⟩ := except_bind_eq_ok.mp h
  obtain ⟨-, -, rfl⟩ := Segment.linkSegment_eq_ok hrows
  cases h
  refine ⟨fun e he => mem_append_left _ he, fun id hid => ?_⟩
  rcases mem_rowIds_set hid with rfl | hid
  · right; simp
  · exact .inl hid

theorem unlinkSegment_records (h : t.unlinkSegment db name = .ok t') : t.Records t' := by
  unfold SegmentTxn.unlinkSegment at h
  obtain ⟨rows, hrows, h⟩ := except_bind_eq_ok.mp h
  obtain ⟨old, -, h⟩ := except_bind_eq_ok.mp h
  obtain ⟨key, rfl⟩ := Segment.unlinkSegment_eq_ok hrows
  cases h
  exact ⟨fun e he => mem_append_left _ he, fun id hid => .inl (mem_rowIds_drop hid)⟩

theorem replaceSegment_records (h : t.replaceSegment db name m = .ok t') : t.Records t' := by
  unfold SegmentTxn.replaceSegment at h
  obtain ⟨rows, hrows, h⟩ := except_bind_eq_ok.mp h
  obtain ⟨old, -, h⟩ := except_bind_eq_ok.mp h
  obtain ⟨-, -, rfl⟩ := Segment.replaceSegment_eq_ok hrows
  cases h
  refine ⟨fun e he => mem_append_left _ he, fun id hid => ?_⟩
  rcases mem_rowIds_set hid with rfl | hid
  · right; simp
  · exact .inl hid

/-! ## §6. The invariant along a run -/

/-- A mutator that records what it does keeps the invariant. -/
theorem SegmentInv.mutate (h : SegmentInv db) {f : SegmentTxn → Except FileError SegmentTxn}
    (hf : ∀ t t', f t = .ok t' → t.Records t') : SegmentInv (db.mutate f) := by
  unfold SegmentDb.mutate
  cases ht : db.txn with
  | none => exact h
  | some t =>
    simp only
    cases hft : f t with
    | error e => exact h
    | ok t' =>
      obtain ⟨heff, hrows⟩ := hf t t' hft
      refine ⟨h.usable, h.published, h.readers, ?_⟩
      intro u hu id hid
      cases hu
      rcases hrows id hid with hid | hprom
      · exact (h.txn t ht id hid).imp (fun hp => hp) (heff _)
      · exact .inr hprom

/-- **A safe commit succeeds and keeps every file still named.** -/
theorem SegmentInv.commit (h : SegmentInv db) (ht : db.txn = some t) (hsafe : CommitSafe db t) :
    SegmentInv (db.commit t) := by
  obtain ⟨hkept, hready⟩ := hsafe
  -- the effects succeed, keep pinned and untombstoned files, and create the promoted ones
  have happ : ∃ store outcome,
      applySegmentEffects db.readerPinned t.effects (db.latestCommitId + 1) db.store
        = (store, .ok outcome)
      ∧ (∀ k ∈ db.store.files.live, (db.readerPinned k = true ∨ k ∉ tombstoned t.effects
          ∧ ∀ p ∈ db.store.pendingTombstones, p.segmentId ≠ k) → k ∈ store.files.live)
      ∧ (∀ k, .promote k ∈ t.effects → k ∉ tombstoned t.effects → k ∈ store.files.live) := by
    unfold applySegmentEffects
    split_ifs with hnil
    · refine ⟨db.store, _, rfl, fun k hk _ => hk, fun k hk => ?_⟩
      rw [hnil] at hk
      cases hk
    · have htaken : ∀ k, (∀ p ∈ db.store.pendingTombstones, p.segmentId ≠ k) →
          ∀ e ∈ db.store.pendingTombstones.take MAX_PER_COMMIT, e.segmentId ≠ k :=
        fun k hk e he => hk e (mem_of_mem_take he)
      have hdrain : ∀ k ∈ db.store.files.live, (db.readerPinned k = true
          ∨ ∀ p ∈ db.store.pendingTombstones, p.segmentId ≠ k) →
          k ∈ (drainSomePendingTombstones db.readerPinned db.store).files.live :=
        fun k hk hs => (drainTaken_keeps _ _).2 hk (hs.imp_right (htaken k))
      have hstag : (drainSomePendingTombstones db.readerPinned db.store).files.staging
          = db.store.files.staging := (drainTaken_keeps (k := 0) _ _).1
      obtain ⟨store, outcome, heq, hkeep, hprom⟩ :=
        @applyEffectsFrom_ok db.readerPinned (db.latestCommitId + 1) t.effects
          (drainSomePendingTombstones db.readerPinned db.store) false
          (fun id => (id ∈ db.store.files.live ∨ id ∈ db.store.files.staging)
            ∧ ∀ p ∈ db.store.pendingTombstones, p.segmentId ≠ id)
          (by
            rintro k ⟨hk | hk, hq⟩
            · exact .inl (hdrain k hk (.inr hq))
            · right; rw [hstag]; exact hk)
          hready
      refine ⟨store, outcome, heq, ?_, hprom⟩
      intro k hk hs
      exact hkeep k (hdrain k hk (hs.imp_right And.right)) (hs.imp_right And.left)
  obtain ⟨store, outcome, heq, hkeep, hprom⟩ := happ
  have hrec : reconcileSegmentEffects db.readerPinned t.effects (db.latestCommitId + 1) db.store
      = (store, .ok outcome) := by
    unfold reconcileSegmentEffects
    rw [heq]
  unfold SegmentDb.commit
  simp only [hrec]
  refine ⟨h.usable, ?_, ?_, ?_⟩
  · intro id hid
    obtain ⟨hnt, hnq⟩ := hkept id hid
    rcases h.txn t ht id hid with hpub | hp
    · exact hkeep id (h.published id hpub) (.inr ⟨hnt, hnq⟩)
    · exact hprom id hp hnt
  · intro r hr id hid
    refine hkeep id (h.readers r hr id hid) (.inl ?_)
    exact any_eq_true.mpr ⟨r, hr, by simpa using hid⟩
  · intro u hu; cases hu

theorem segmentInv_step (db : SegmentDb) (e : SegmentEvent) (h : SegmentInv db)
    (hsafe : SegmentStepSafe db e) : SegmentInv (db.step e) := by
  cases e with
  | createAndSeal m =>
    show SegmentInv (if _ then db else _)
    split
    · exact h
    · exact ⟨h.usable, h.published, h.readers, h.txn⟩
  | begin =>
    show SegmentInv (if _ then db else _)
    split
    · exact h
    · refine ⟨h.usable, h.published, h.readers, ?_⟩
      intro t ht id hid
      cases ht
      exact .inl hid
  | link name m =>
    show SegmentInv (if _ then db.mutate _ else db)
    split
    · exact h.mutate fun t t' => linkSegment_records
    · exact h
  | unlink name =>
    exact h.mutate fun t t' => unlinkSegment_records
  | replace name m =>
    show SegmentInv (if _ then db.mutate _ else db)
    split
    · exact h.mutate fun t t' => replaceSegment_records
    · exact h
  | commit =>
    unfold SegmentDb.step
    cases ht : db.txn with
    | none => exact h
    | some t => exact h.commit ht (hsafe t ht)
  | abort => exact ⟨h.usable, h.published, h.readers, by intro t ht; cases ht⟩
  | setRealmQuotas realm quotas =>
    show SegmentInv (if _ then db else _)
    split_ifs with hbusy
    · exact h
    · refine ⟨h.usable, fun id hid => h.published id (mem_rowIds_quota hid), h.readers, ?_⟩
      intro t ht
      have ht : db.txn = some t := ht
      exact absurd (.inr (by rw [ht]; rfl)) hbusy
  | beginRead =>
    show SegmentInv (if _ then db else _)
    split
    · exact h
    · refine ⟨h.usable, h.published, ?_, h.txn⟩
      intro r hr
      rcases mem_concat.mp hr with hr | rfl
      · exact h.readers r hr
      · exact h.published
  | dropReader readerId =>
    exact ⟨h.usable, h.published, fun r hr => h.readers r (mem_filter.mp hr).1, h.txn⟩

/-- **Published segments keep their file.**  In every run whose commits never
    keep and retire one id at once, no commit fails, and every id named by the
    published rows or by the snapshot of a live reader has its live file. -/
theorem published_segments_keep_their_file (realmId : RealmId) (mkEpoch : Nat)
    (es : List SegmentEvent)
    (hsafe : Lib.Meets SegmentDb.step SegmentStepSafe (SegmentDb.create realmId mkEpoch) es) :
    let db := Lib.run SegmentDb.step (SegmentDb.create realmId mkEpoch) es
    db.poisoned = false ∧ HasLiveFiles db.store.files db.published
      ∧ ∀ r ∈ db.readers, HasLiveFiles db.store.files r.rows := by
  intro db
  have hinv : SegmentInv db :=
    Lib.run_invariant_of_meets segmentInv_step es _ (segmentInv_create realmId mkEpoch) hsafe
  exact ⟨hinv.usable, hinv.published, hinv.readers⟩

/-- What the seal of a segment with pages returns. -/
def pagedSealed : SealedMeta := ⟨pagedMeta, pagedMeta_inRange⟩

set_option maxRecDepth 4000 in
/-- A link, a reader of it and an unlink meet the side condition, and the pinned
    file survives the unlink. -/
theorem published_segments_keep_their_file_pinned :
    let es : List SegmentEvent := [.setRealmQuotas 3 ⟨none, none, none, some 30000⟩,
      .createAndSeal pagedSealed, .begin, .link [97] pagedSealed, .commit, .beginRead, .begin,
      .unlink [97], .commit]
    let db := Lib.run SegmentDb.step (SegmentDb.create 3 0) es
    db.poisoned = false ∧ (∃ r ∈ db.readers, rowIds r.rows = [5]) ∧ 5 ∈ db.store.files.live := by
  intro es db
  have hsafe : Lib.Meets SegmentDb.step SegmentStepSafe (SegmentDb.create 3 0) es := by
    refine ⟨trivial, trivial, trivial, trivial, fun t ht => ?_, trivial, trivial, trivial,
      fun t ht => ?_, trivial⟩
    · cases ht
      exact ⟨by decide +kernel, ⟨by decide +kernel, trivial⟩⟩
    · cases ht
      exact ⟨by decide +kernel, trivial⟩
  have h := published_segments_keep_their_file 3 0 es hsafe
  obtain ⟨r, hr, hids⟩ : ∃ r ∈ db.readers, rowIds r.rows = [5] := by decide +kernel
  exact ⟨h.1, ⟨r, hr, hids⟩, h.2.2 r hr 5 (by rw [hids]; exact mem_singleton_self 5)⟩

/-- One sealed segment linked under two names and unlinked under the first: the
    commit succeeds, the published row `b` still names segment 5, and its file
    is gone. -/
theorem relinked_segment_loses_its_file :
    let db := Lib.run SegmentDb.step (SegmentDb.create 3 0)
      [.createAndSeal pagedSealed, .begin, .link [97] pagedSealed, .link [98] pagedSealed, .commit,
        .begin, .unlink [97], .commit]
    db.poisoned = false
      ∧ db.published = [(segmentRowKey 3 [98], encodeSegmentMeta pagedSealed.val)]
      ∧ rowIds db.published = [5] ∧ db.store.files.live = [] := by
  decide +kernel

end Pagedb
