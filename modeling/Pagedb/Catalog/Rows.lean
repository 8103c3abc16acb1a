/-
  Pagedb.Catalog.Rows — the segment rows of the catalog as bytes
  (`catalog/codec.rs`, and the segment calls of `txn/write/txn.rs`).

  The key of a segment row is built from the store's realm and the name, its
  value is the encoded meta, and the meta carries the realm the segment was
  created in.  Only the check of a later open compares the two realms.

  The catalog tree appears as the ascending list of the rows it stores.

  Main results:
    * `decodeSegmentMeta_encode`  — an encoded meta reads back;
    * `validateSegmentKey_own`    — a key built from the meta's realm is valid;
    * `CatalogInv.step`           — what the calls of a store keep.
-/
import Pagedb.Catalog.Codec
import Pagedb.Lib.Paging
import Pagedb.Segment.RoundTrip

namespace Pagedb.Segment

open Lib List

/-! ## §1. The value of a segment row -/

/-- The byte of `Evictable`. -/
def Evictable.asByte : Evictable → UInt8
  | .authoritative => 0
  | .replaceable => 1

/-- The flag byte of `linked_commit`. -/
def linkedFlag (linked : Option CommitId) : UInt8 := if linked.isSome then 1 else 0

/-- The bytes of `linked_commit`: zero when there is none. -/
def linkedBytes : Option CommitId → Bytes
  | some c => leBytes 8 c
  | none => zeros 8

/-- The fields of an encoded meta in order. -/
def SegmentMeta.pieces (m : SegmentMeta) : List Bytes :=
  [beBytes 16 m.segmentId, [m.segmentKind.asByte], beBytes 16 m.realmId, beBytes 16 m.parentFileId,
    [linkedFlag m.linkedCommit], linkedBytes m.linkedCommit, leBytes 8 m.pageCount,
    leBytes 8 m.totalBytes, leBytes 8 m.finalCounter, leBytes 8 m.mkEpoch, [m.cipherId],
    leBytes 2 m.formatVersion, [m.evictable.asByte]]

/-- The widths of those fields. -/
def META_WIDTHS : List Nat := [16, 1, 16, 16, 1, 8, 8, 8, 8, 8, 1, 2, 1]

/-- `Catalog::encode_segment_meta`. -/
def encodeSegmentMeta (m : SegmentMeta) : Bytes := m.pieces.flatten

/-- The `linked_commit` part of `decode_segment_meta`. -/
def decodeLinkedCommit (flag : UInt8) (bytes : Bytes) : Except FileError (Option CommitId) :=
  if flag = 0 then do
    require (AllZero bytes) (.catalogRowInvalid "segment_meta.linked_commit")
    pure none
  else if flag = 1 then pure (some (ofLeBytes bytes))
  else throw (.catalogRowInvalid "segment_meta.linked_commit")

/-- The `evictable` part of `decode_segment_meta`. -/
def decodeEvictable (b : UInt8) : Except FileError Evictable :=
  if b = 0 then pure .authoritative
  else if b = 1 then pure .replaceable
  else throw (.catalogRowInvalid "segment_meta.evictable")

/-- `Catalog::decode_segment_meta`. -/
def decodeSegmentMeta (bytes : Bytes) : Except FileError SegmentMeta := do
  require (bytes.length = SEGMENT_META_LEN) (.catalogRowInvalid "segment_meta.length")
  let piece := fun i => (fields META_WIDTHS bytes).getD i []
  let segmentKind ← SegmentKind.fromByte ((piece 1).headD 0)
  let linkedCommit ← decodeLinkedCommit ((piece 4).headD 0) (piece 5)
  let evictable ← decodeEvictable ((piece 12).headD 0)
  pure {
    segmentId := ofBeBytes (piece 0)
    segmentKind
    realmId := ofBeBytes (piece 2)
    parentFileId := ofBeBytes (piece 3)
    linkedCommit
    pageCount := ofLeBytes (piece 6)
    totalBytes := ofLeBytes (piece 7)
    finalCounter := ofLeBytes (piece 8)
    mkEpoch := ofLeBytes (piece 9)
    cipherId := (piece 10).headD 0
    formatVersion := ofLeBytes (piece 11)
    evictable }

/-- The fields of a meta fit their widths. -/
structure SegmentMeta.InRange (m : SegmentMeta) : Prop where
  segmentId : m.segmentId < 256 ^ 16
  realmId : m.realmId < 256 ^ 16
  parentFileId : m.parentFileId < 256 ^ 16
  linkedCommit : ∀ c, m.linkedCommit = some c → c < 256 ^ 8
  pageCount : m.pageCount < 256 ^ 8
  totalBytes : m.totalBytes < 256 ^ 8
  finalCounter : m.finalCounter < 256 ^ 8
  mkEpoch : m.mkEpoch < 256 ^ 8
  formatVersion : m.formatVersion < 256 ^ 2

section Meta

variable {m : SegmentMeta}

theorem linkedBytes_length (linked : Option CommitId) : (linkedBytes linked).length = 8 := by
  cases linked with
  | none => exact zeros_length 8
  | some c => exact leBytes_length 8 c

theorem SegmentMeta.pieces_widths (m : SegmentMeta) : m.pieces.map List.length = META_WIDTHS := by
  simp [pieces, META_WIDTHS, linkedBytes_length]

theorem encodeSegmentMeta_length (m : SegmentMeta) : (encodeSegmentMeta m).length = SEGMENT_META_LEN :=
  flatten_length_of_widths m.pieces_widths

theorem decodeLinkedCommit_encode {linked : Option CommitId}
    (h : ∀ c, linked = some c → c < 256 ^ 8) :
    decodeLinkedCommit (linkedFlag linked) (linkedBytes linked) = .ok linked := by
  unfold decodeLinkedCommit
  cases linked with
  | none =>
    have hzero : AllZero (linkedBytes none) := allZero_zeros 8
    rw [if_pos (show linkedFlag none = 0 from rfl), require_bind hzero]
    rfl
  | some c =>
    show Except.ok (some (ofLeBytes (leBytes 8 c))) = Except.ok (some c)
    rw [ofLeBytes_leBytes_of_lt (h c rfl)]

theorem decodeEvictable_asByte (e : Evictable) : decodeEvictable e.asByte = .ok e := by
  cases e <;> rfl

/-- **An encoded meta reads back.** -/
theorem decodeSegmentMeta_encode (h : m.InRange) : decodeSegmentMeta (encodeSegmentMeta m) = .ok m := by
  have hfields : fields META_WIDTHS (encodeSegmentMeta m) = m.pieces := by
    have := fields_of_widths ([] : Bytes) m.pieces_widths
    rw [append_nil] at this
    exact this
  unfold decodeSegmentMeta
  rw [require_bind (encodeSegmentMeta_length m), hfields]
  simp only [SegmentMeta.pieces, getD_cons_succ, getD_cons_zero, headD_cons]
  rw [ok_bind (SegmentKind.fromByte_asByte _), ok_bind (decodeLinkedCommit_encode h.linkedCommit),
    ok_bind (decodeEvictable_asByte _),
    ofBeBytes_beBytes_of_lt h.segmentId, ofBeBytes_beBytes_of_lt h.realmId,
    ofBeBytes_beBytes_of_lt h.parentFileId, ofLeBytes_leBytes_of_lt h.pageCount,
    ofLeBytes_leBytes_of_lt h.totalBytes, ofLeBytes_leBytes_of_lt h.finalCounter,
    ofLeBytes_leBytes_of_lt h.mkEpoch, ofLeBytes_leBytes_of_lt h.formatVersion]
  rfl

end Meta

/-! ## §2. The key of a segment row -/

/-- The bytes of a segment row's key. -/
def segmentRowKey (realm : RealmId) (name : Bytes) : Bytes := 0x01 :: beBytes 16 realm ++ name

/-- `Catalog::segment_key`. -/
def segmentKey (realm : RealmId) (name : Bytes) : Except FileError Bytes :=
  if name.length > MAX_SEGMENT_NAME_LEN then .error .nameTooLong else .ok (segmentRowKey realm name)

/-- `CatalogRowKind::Segment` and the realm, in front of the name. -/
def SEGMENT_KEY_PREFIX_LEN : Nat := 1 + 16

/-- `Catalog::validate_segment_key`. -/
def validateSegmentKey (key : Bytes) (m : SegmentMeta) : Except FileError Bytes := do
  require (key.head? = some 0x01) (.catalogRowInvalid "segment.key.kind")
  require (SEGMENT_KEY_PREFIX_LEN ≤ key.length) (.catalogRowInvalid "segment.key.length")
  require ((key.drop SEGMENT_KEY_PREFIX_LEN).length ≤ MAX_SEGMENT_NAME_LEN)
    (.catalogRowInvalid "segment.key.name_length")
  require (slice key 1 16 = beBytes 16 m.realmId) (.catalogRowInvalid "segment.key.realm_id")
  pure (key.drop SEGMENT_KEY_PREFIX_LEN)

theorem segmentKey_eq_ok {realm : RealmId} {name key : Bytes} (h : segmentKey realm name = .ok key) :
    name.length ≤ MAX_SEGMENT_NAME_LEN ∧ key = segmentRowKey realm name := by
  unfold segmentKey at h
  by_cases hlong : name.length > MAX_SEGMENT_NAME_LEN
  · rw [if_pos hlong] at h
    cases h
  · rw [if_neg hlong] at h
    cases h
    exact ⟨Nat.not_lt.mp hlong, rfl⟩

section Key

variable {realm : RealmId} {name : Bytes} {m : SegmentMeta}

theorem segmentRowKey_realm : slice (segmentRowKey realm name) 1 16 = beBytes 16 realm := by
  have hkind : ([0x01] : Bytes).length = 1 := rfl
  exact slice_mid hkind (beBytes_length 16 realm)

theorem segmentRowKey_name : (segmentRowKey realm name).drop SEGMENT_KEY_PREFIX_LEN = name := by
  have hlen : (0x01 :: beBytes 16 realm).length = SEGMENT_KEY_PREFIX_LEN := by
    rw [length_cons, beBytes_length]
    rfl
  unfold segmentRowKey
  rw [← hlen]
  exact drop_left

/-- **A key built from the meta's realm is valid.** -/
theorem validateSegmentKey_own (hname : name.length ≤ MAX_SEGMENT_NAME_LEN)
    (hrealm : m.realmId = realm) : validateSegmentKey (segmentRowKey realm name) m = .ok name := by
  have hlen : SEGMENT_KEY_PREFIX_LEN ≤ (segmentRowKey realm name).length := by
    unfold segmentRowKey SEGMENT_KEY_PREFIX_LEN
    simp
  have hkind : (segmentRowKey realm name).head? = some 0x01 := rfl
  unfold validateSegmentKey
  rw [require_bind hkind, require_bind hlen, segmentRowKey_name, require_bind hname,
    segmentRowKey_realm, hrealm, require_bind rfl]
  rfl

end Key

/-! ## §3. Calls of a transaction -/

/-- The rows of a catalog tree, in key order. -/
abbrev Rows := List (Bytes × Bytes)

/-- `Catalog::decode_realm_quotas`. -/
def decodeRealmQuotas (bytes : Bytes) : Except FileError RealmQuotas := do
  require (bytes.length = 33) (.catalogRowInvalid "realm_quotas.length")
  let mask := (bytes.headD 0).toNat
  let cap := fun bit off => if mask.testBit bit then some (ofLeBytes (slice bytes off 8)) else none
  pure ⟨cap 0 1, cap 1 9, cap 2 17, cap 3 25⟩

/-- `RealmQuotas::default`. -/
def noQuotas : RealmQuotas := ⟨none, none, none, none⟩

/-- The bytes the segment rows of a realm add up to. -/
def committedSegmentBytes (rows : Rows) (realm : RealmId) : Except FileError Nat :=
  (rows.filter fun r => (segmentRowKey realm []).isPrefixOf r.1).foldlM (fun committed r => do
      let m ← decodeSegmentMeta r.2
      pure (satAdd committed m.totalBytes)) 0

/-- `enforce_segment_bytes_quota`. -/
def enforceSegmentBytesQuota (rows : Rows) (realm : RealmId) (newBytes deltaRemoveBytes : Nat) :
    Except FileError Unit := do
  let quotas ← match find (quotaKey realm) rows with
    | some v => decodeRealmQuotas v
    | none => pure noQuotas
  match quotas.maxSegmentBytes with
  | none => pure ()
  | some limit => do
    let committed ← committedSegmentBytes rows realm
    require (satAdd (committed - deltaRemoveBytes) newBytes ≤ limit) .quotaExceeded

/-- `link_segment`, on the rows of the transaction's catalog tree. -/
def linkSegment (storeRealm : RealmId) (storeEpoch : Nat) (rows : Rows) (name : Bytes)
    (m : SegmentMeta) : Except FileError Rows := do
  require (m.mkEpoch = storeEpoch) .segmentEpochStale
  let key ← segmentKey storeRealm name
  require (find key rows = none) .alreadyLinked
  enforceSegmentBytesQuota rows m.realmId m.totalBytes 0
  pure (setRecord key (encodeSegmentMeta m) rows)

/-- The row of a name, or `NotLinked`. -/
def linkedRow (rows : Rows) (key : Bytes) : Except FileError SegmentMeta :=
  match find key rows with
  | some v => decodeSegmentMeta v
  | none => throw .notLinked

/-- `unlink_segment`. -/
def unlinkSegment (storeRealm : RealmId) (rows : Rows) (name : Bytes) : Except FileError Rows := do
  let key ← segmentKey storeRealm name
  let _ ← linkedRow rows key
  pure (dropRecord key rows)

/-- `replace_segment`. -/
def replaceSegment (storeRealm : RealmId) (storeEpoch : Nat) (rows : Rows) (name : Bytes)
    (m : SegmentMeta) : Except FileError Rows := do
  require (m.mkEpoch = storeEpoch) .segmentEpochStale
  let key ← segmentKey storeRealm name
  let old ← linkedRow rows key
  enforceSegmentBytesQuota rows m.realmId m.totalBytes old.totalBytes
  pure (setRecord key (encodeSegmentMeta m) rows)

/-- `CounterRef::set`. -/
def setCounter (rows : Rows) (name : Bytes) (value : Nat) : Except FileError Rows :=
  match counterKey name with
  | some key => .ok (setRecord key (encodeCounter value) rows)
  | none => .error .nameTooLong

/-! ## §4. A store's life -/

/-- The catalog side of an open store: the published rows, the rows of the open
    transaction, and the segments sealed so far with their files. -/
structure CatalogStore where
  realmId : Id16
  published : Rows
  txn : Option Rows
  sealed : List (SegmentMeta × Bytes)

/-- A store that was just created. -/
def CatalogStore.fresh (realmId : Id16) : CatalogStore := ⟨realmId, [], none, []⟩

/-- A call on the store or on its open transaction. -/
inductive CatalogCall where
  | createAndSeal (realmId segmentId : Id16) (kind : SegmentKind) (io : WriteOutcome)
      (calls : List WriterCall) (sealIo : SealOutcome)
  | beginWrite
  | linkSegment (name : Bytes) (m : SegmentMeta)
  | unlinkSegment (name : Bytes)
  | replaceSegment (name : Bytes) (m : SegmentMeta)
  | setCounter (name : Bytes) (value : Nat)
  | commit
  | abort
  | setRealmQuotas (realmId : Id16) (quotas : RealmQuotas)

variable {MK : Type}

/-- A segment written and sealed: its meta and its file. -/
def createAndSeal (p : SegmentPager MK) (realmId segmentId : Id16) (kind : SegmentKind)
    (io : WriteOutcome) (calls : List WriterCall) (sealIo : SealOutcome) :
    Except FileError (SegmentMeta × Bytes) := do
  let w ← createSegment p realmId segmentId kind io
  match sealSegment p sealIo (run (WriterLife.step p) (WriterLife.start w) calls).writer with
  | .ok m w => pure (m, w.file)
  | .error e _ => throw e

/-- A call on the open transaction; one that fails leaves its rows alone. -/
def CatalogStore.within (s : CatalogStore) (call : Rows → Except FileError Rows) : CatalogStore :=
  match s.txn with
  | none => s
  | some rows =>
    match call rows with
    | .ok rows' => { s with txn := some rows' }
    | .error _ => s

/-- One call.  A commit that fails publishes nothing and reads as an abort. -/
def CatalogStore.step (p : SegmentPager MK) (s : CatalogStore) : CatalogCall → CatalogStore
  | .createAndSeal realmId segmentId kind io calls sealIo =>
    match createAndSeal p realmId segmentId kind io calls sealIo with
    | .ok x => { s with sealed := x :: s.sealed }
    | .error _ => s
  | .beginWrite => if s.txn.isSome then s else { s with txn := some s.published }
  | .linkSegment name m =>
    s.within fun rows => Segment.linkSegment s.realmId.val p.mkEpoch rows name m
  | .unlinkSegment name => s.within fun rows => Segment.unlinkSegment s.realmId.val rows name
  | .replaceSegment name m =>
    s.within fun rows => Segment.replaceSegment s.realmId.val p.mkEpoch rows name m
  | .setCounter name value => s.within fun rows => Segment.setCounter rows name value
  | .commit =>
    match s.txn with
    | some rows => { s with published := rows, txn := none }
    | none => s
  | .abort => { s with txn := none }
  | .setRealmQuotas realmId quotas =>
    if s.txn.isSome then s
    else { s with
      published := setRecord (quotaKey realmId.val) (encodeRealmQuotas quotas) s.published }

/-- The call is one of a caller that keeps to the public API, on a store whose
    writes land: the meta it links is one a seal returned. -/
def CatalogCall.Public (p : SegmentPager MK) (s : CatalogStore) : CatalogCall → Prop
  | .createAndSeal realmId segmentId kind io calls _ =>
    ∀ w, createSegment p realmId segmentId kind io = .ok w →
      Meets (WriterLife.step p) (fun life call => call.WritesLand ∨ call.ReturnsOk p life.writer)
        (WriterLife.start w) calls
  | .linkSegment _ m | .replaceSegment _ m => ∃ file, (m, file) ∈ s.sealed
  | _ => True

/-- A segment it links was created in the store's own realm. -/
def CatalogCall.OwnRealm (s : CatalogStore) : CatalogCall → Prop
  | .linkSegment _ m | .replaceSegment _ m => m.realmId = s.realmId.val
  | _ => True

/-! ## §5. What the calls keep -/

/-- A row as some call of the store wrote it. -/
inductive RowOk (realm : RealmId) (sealed : List (SegmentMeta × Bytes)) : Bytes × Bytes → Prop
  | quota (r : RealmId) (q : RealmQuotas) : RowOk realm sealed (quotaKey r, encodeRealmQuotas q)
  | segment {name : Bytes} {m : SegmentMeta} {file : Bytes} (hname : name.length ≤ MAX_SEGMENT_NAME_LEN)
      (hrealm : m.realmId = realm) (hsealed : (m, file) ∈ sealed) :
      RowOk realm sealed (segmentRowKey realm name, encodeSegmentMeta m)
  | counter (name : Bytes) (value : Nat) : RowOk realm sealed (0x02 :: name, encodeCounter value)

/-- Rows in key order, each as some call wrote it. -/
structure RowsOk (realm : RealmId) (sealed : List (SegmentMeta × Bytes)) (rows : Rows) : Prop where
  ascending : Ascending rows
  rows : ∀ r ∈ rows, RowOk realm sealed r

/-- A sealed segment: its meta fits its widths, its file is accepted with it. -/
structure SealedOk (p : SegmentPager MK) (x : SegmentMeta × Bytes) : Prop where
  inRange : x.1.InRange
  accepted : ∃ a, authenticateSegmentMetadata p x.2 x.1 p.fileId = .ok a

/-- What every call keeps. -/
structure CatalogInv (p : SegmentPager MK) (s : CatalogStore) : Prop where
  sealed : ∀ x ∈ s.sealed, SealedOk p x
  published : RowsOk s.realmId.val s.sealed s.published
  txn : ∀ rows, s.txn = some rows → RowsOk s.realmId.val s.sealed rows

section Keep

variable {p : SegmentPager MK} {s : CatalogStore} {realm : RealmId}
  {sealed : List (SegmentMeta × Bytes)} {rows rows' : Rows} {name : Bytes} {m : SegmentMeta}

theorem RowsOk.mono (h : RowsOk realm sealed rows) (x : SegmentMeta × Bytes) :
    RowsOk realm (x :: sealed) rows := by
  refine ⟨h.ascending, fun r hr => ?_⟩
  cases h.rows r hr with
  | quota r q => exact .quota r q
  | segment hname hrealm hsealed => exact .segment hname hrealm (mem_cons_of_mem x hsealed)
  | counter name value => exact .counter name value

theorem RowsOk.setRecord {key value : Bytes} (h : RowsOk realm sealed rows)
    (hrow : RowOk realm sealed (key, value)) : RowsOk realm sealed (setRecord key value rows) := by
  refine ⟨h.ascending.setRecord key value, fun r hr => ?_⟩
  rcases mem_setRecord hr with rfl | hr
  · exact hrow
  · exact h.rows r hr

theorem RowsOk.dropRecord (h : RowsOk realm sealed rows) (key : Bytes) :
    RowsOk realm sealed (dropRecord key rows) :=
  ⟨h.ascending.dropRecord key, fun r hr => h.rows r (mem_of_mem_dropRecord hr)⟩

/-- `total_bytes` of the meta in a row. -/
def rowBytes (value : Bytes) : Nat :=
  match decodeSegmentMeta value with
  | .ok m => m.totalBytes
  | .error _ => 0

/-- A segment under a name: the check of the quota frees what the name held, and
    the row is set. -/
structure SetsSegment (realm : RealmId) (rows : Rows) (name : Bytes) (m : SegmentMeta)
    (rows' : Rows) : Prop where
  name_le : name.length ≤ MAX_SEGMENT_NAME_LEN
  within_quota : enforceSegmentBytesQuota rows m.realmId m.totalBytes
    ((find (segmentRowKey realm name) rows).elim 0 rowBytes) = .ok ()
  rows_eq : rows' = setRecord (segmentRowKey realm name) (encodeSegmentMeta m) rows

theorem linkSegment_eq_ok {epoch : Nat} (h : linkSegment realm epoch rows name m = .ok rows') :
    SetsSegment realm rows name m rows' := by
  unfold linkSegment at h
  obtain ⟨-, h⟩ := require_bind_eq_ok.mp h
  obtain ⟨key, hkey, h⟩ := except_bind_eq_ok.mp h
  obtain ⟨hnone, h⟩ := require_bind_eq_ok.mp h
  obtain ⟨_, hquota, h⟩ := except_bind_eq_ok.mp h
  obtain ⟨hname, rfl⟩ := segmentKey_eq_ok hkey
  cases h
  exact ⟨hname, by rw [hnone]; exact hquota, rfl⟩

theorem replaceSegment_eq_ok {epoch : Nat} (h : replaceSegment realm epoch rows name m = .ok rows') :
    SetsSegment realm rows name m rows' := by
  unfold replaceSegment linkedRow at h
  obtain ⟨-, h⟩ := require_bind_eq_ok.mp h
  obtain ⟨key, hkey, h⟩ := except_bind_eq_ok.mp h
  obtain ⟨old, hold, h⟩ := except_bind_eq_ok.mp h
  obtain ⟨_, hquota, h⟩ := except_bind_eq_ok.mp h
  obtain ⟨hname, rfl⟩ := segmentKey_eq_ok hkey
  cases h
  cases hrow : find (segmentRowKey realm name) rows with
  | none => rw [hrow] at hold; cases hold
  | some v =>
    rw [hrow] at hold
    have hfreed : rowBytes v = old.totalBytes := by
      unfold rowBytes
      rw [show decodeSegmentMeta v = .ok old from hold]
    exact ⟨hname, by rw [hrow, Option.elim_some, hfreed]; exact hquota, rfl⟩

theorem unlinkSegment_eq_ok (h : unlinkSegment realm rows name = .ok rows') :
    ∃ key, rows' = dropRecord key rows := by
  unfold unlinkSegment at h
  obtain ⟨key, -, h⟩ := except_bind_eq_ok.mp h
  obtain ⟨old, -, h⟩ := except_bind_eq_ok.mp h
  cases h
  exact ⟨key, rfl⟩

theorem setCounter_eq_ok {value : Nat} (h : setCounter rows name value = .ok rows') :
    rows' = setRecord (0x02 :: name) (encodeCounter value) rows := by
  unfold setCounter counterKey at h
  by_cases hlong : name.length > MAX_SEGMENT_NAME_LEN
  · rw [if_pos hlong] at h
    cases h
  · rw [if_neg hlong] at h
    cases h
    rfl

/-- The row a call of the store may set. -/
inductive CatalogCall.Sets (realm : RealmId) : CatalogCall → Bytes × Bytes → Prop
  | link {name : Bytes} {m : SegmentMeta} (hname : name.length ≤ MAX_SEGMENT_NAME_LEN) :
      Sets realm (.linkSegment name m) (segmentRowKey realm name, encodeSegmentMeta m)
  | replace {name : Bytes} {m : SegmentMeta} (hname : name.length ≤ MAX_SEGMENT_NAME_LEN) :
      Sets realm (.replaceSegment name m) (segmentRowKey realm name, encodeSegmentMeta m)
  | counter (name : Bytes) (value : Nat) :
      Sets realm (.setCounter name value) (0x02 :: name, encodeCounter value)
  | quota (r : Id16) (q : RealmQuotas) :
      Sets realm (.setRealmQuotas r q) (quotaKey r.val, encodeRealmQuotas q)

/-- `P` holds of the published rows and of those of the open transaction. -/
structure CatalogStore.Each (s : CatalogStore) (P : Rows → Prop) : Prop where
  published : P s.published
  txn : ∀ rows, s.txn = some rows → P rows

theorem CatalogStore.Each.inTxn {P : Rows → Prop}
    {call : Rows → Except FileError Rows} (h : s.Each P) (hcall : ∀ rows rows', P rows → call rows = .ok rows' → P rows') :
    (s.within call).Each P := by
  unfold CatalogStore.within
  cases htxn : s.txn with
  | none => exact h
  | some rows =>
    dsimp only
    cases hr : call rows with
    | error e => exact h
    | ok rows' =>
      refine ⟨h.published, fun rows'' heq => ?_⟩
      cases heq
      exact hcall rows rows' (h.txn rows htxn) hr

/-- **What one call does to the rows**: it sets a row of its own, drops one, or moves
    them between the transaction and the published tree. -/
theorem CatalogStore.Each.step {P : Rows → Prop} {call : CatalogCall} (h : s.Each P)
    (hset : ∀ rows r, P rows → call.Sets s.realmId.val r → P (setRecord r.1 r.2 rows))
    (hdrop : ∀ rows key, P rows → P (dropRecord key rows)) : (s.step p call).Each P := by
  cases call with
  | createAndSeal realmId segmentId kind io calls sealIo =>
    unfold CatalogStore.step
    dsimp only
    cases createAndSeal p realmId segmentId kind io calls sealIo with
    | error e => exact h
    | ok x => exact ⟨h.published, h.txn⟩
  | beginWrite =>
    unfold CatalogStore.step
    dsimp only
    split_ifs with hopen
    · exact h
    · refine ⟨h.published, fun rows hrows => ?_⟩
      cases hrows
      exact h.published
  | linkSegment name m =>
    refine h.inTxn fun rows rows' hok hr => ?_
    obtain ⟨hname, -, rfl⟩ := linkSegment_eq_ok hr
    exact hset rows _ hok (.link hname)
  | unlinkSegment name =>
    refine h.inTxn fun rows rows' hok hr => ?_
    obtain ⟨key, rfl⟩ := unlinkSegment_eq_ok hr
    exact hdrop rows key hok
  | replaceSegment name m =>
    refine h.inTxn fun rows rows' hok hr => ?_
    obtain ⟨hname, -, rfl⟩ := replaceSegment_eq_ok hr
    exact hset rows _ hok (.replace hname)
  | setCounter name value =>
    refine h.inTxn fun rows rows' hok hr => ?_
    rw [setCounter_eq_ok hr]
    exact hset rows _ hok (.counter name value)
  | commit =>
    unfold CatalogStore.step
    dsimp only
    cases htxn : s.txn with
    | none => exact h
    | some rows => exact ⟨h.txn rows htxn, nofun⟩
  | abort => exact ⟨h.published, nofun⟩
  | setRealmQuotas realmId quotas =>
    unfold CatalogStore.step
    dsimp only
    split_ifs with hopen
    · exact h
    · refine ⟨hset _ _ h.published (.quota _ quotas), fun rows hrows => ?_⟩
      exact absurd (by rw [show s.txn = some rows from hrows]; rfl) hopen

/-- The store keeps its realm, and a call that seals a segment adds it. -/
theorem CatalogStore.step_sealed (p : SegmentPager MK) (call : CatalogCall) :
    (s.step p call).realmId = s.realmId ∧ ((s.step p call).sealed = s.sealed
      ∨ ∃ realmId segmentId kind io calls sealIo x,
        call = .createAndSeal realmId segmentId kind io calls sealIo
          ∧ createAndSeal p realmId segmentId kind io calls sealIo = .ok x
          ∧ (s.step p call).sealed = x :: s.sealed) := by
  cases call with
  | createAndSeal realmId segmentId kind io calls sealIo =>
    unfold CatalogStore.step
    dsimp only
    cases hx : createAndSeal p realmId segmentId kind io calls sealIo with
    | error e => exact ⟨rfl, .inl rfl⟩
    | ok x => exact ⟨rfl, .inr ⟨_, _, _, _, _, _, x, rfl, hx, rfl⟩⟩
  | abort => exact ⟨rfl, .inl rfl⟩
  | _ =>
    simp only [CatalogStore.step, CatalogStore.within]
    split <;> (try split) <;> exact ⟨rfl, .inl rfl⟩

/-- A meta from a seal fits its widths. -/
theorem meta_inRange {mk : MK} {life : WriterLife} {io : SealOutcome} {w' : SegmentWriter}
    (hinv : LifeInv p mk life) (hseal : sealSegment p io life.writer = .ok m w') : m.InRange := by
  obtain ⟨bodies, hw, hr⟩ := hinv
  obtain ⟨w₁, all, index, hsame, hat, hs⟩ := sealSegment_eq_ok hw hr.layout hseal
  obtain ⟨-, hi, hc⟩ := hs.index_validates hat
  have hf := hs.footer_inRange hi hc
  rw [hs.meta_eq]
  refine ⟨hf.segmentId, hf.realmId, hf.parentFileId, ?_, hf.pageCount, hf.totalBytes, ?_,
    hf.mkEpoch, show FORMAT_VERSION < 256 ^ 2 by decide⟩
  · intro c hnone
    cases hnone
  · exact Nat.lt_of_le_of_lt (Nat.le_of_succ_le hf.finalCounter) (by decide)

/-- A segment whose calls landed or returned `Ok` is sealed in order. -/
theorem createAndSeal_ok {realmId segmentId : Id16} {kind : SegmentKind} {io : WriteOutcome}
    {calls : List WriterCall} {sealIo : SealOutcome} {x : SegmentMeta × Bytes}
    (hcalls : ∀ w, createSegment p realmId segmentId kind io = .ok w →
      Meets (WriterLife.step p) (fun life call => call.WritesLand ∨ call.ReturnsOk p life.writer)
        (WriterLife.start w) calls)
    (h : createAndSeal p realmId segmentId kind io calls sealIo = .ok x) : SealedOk p x := by
  unfold createAndSeal at h
  obtain ⟨w, hcreate, h⟩ := except_bind_eq_ok.mp h
  obtain ⟨mk, hstart⟩ := lifeInv_start hcreate
  have hinv : LifeInv p mk (run (WriterLife.step p) (WriterLife.start w) calls) :=
    run_invariant_of_meets (fun _ _ hs hok => hs.step hok) calls _ hstart (hcalls w hcreate)
  cases hseal : sealSegment p sealIo
      (run (WriterLife.step p) (WriterLife.start w) calls).writer with
  | error e w' => rw [hseal] at h; cases h
  | ok m w' =>
    rw [hseal] at h
    cases h
    obtain ⟨reader, hread⟩ := readsBack_of_sealed hinv hseal
    exact ⟨meta_inRange hinv hseal, _, hread.accepted⟩

/-- **What one call keeps.** -/
theorem CatalogInv.step {call : CatalogCall} (h : CatalogInv p s) (hpublic : call.Public p s)
    (hown : call.OwnRealm s) : CatalogInv p (s.step p call) := by
  have hrows : (s.step p call).Each (RowsOk s.realmId.val s.sealed) := by
    refine CatalogStore.Each.step ⟨h.published, h.txn⟩ (fun rows r hok hr => hok.setRecord ?_)
      fun rows key hok => hok.dropRecord key
    cases hr with
    | link hname => exact .segment hname hown hpublic.choose_spec
    | replace hname => exact .segment hname hown hpublic.choose_spec
    | counter name value => exact .counter name value
    | quota r q => exact .quota r.val q
  obtain ⟨hrealm, heq | ⟨_, _, _, _, _, _, x, rfl, hx, heq⟩⟩ := CatalogStore.step_sealed p call
  · refine ⟨?_, ?_, ?_⟩ <;> rw [heq]
    · exact h.sealed
    · exact hrealm ▸ hrows.published
    · exact hrealm ▸ hrows.txn
  · refine ⟨?_, ?_, ?_⟩ <;> rw [heq]
    · intro y hy
      rcases mem_cons.mp hy with rfl | hy
      · exact createAndSeal_ok hpublic hx
      · exact h.sealed y hy
    · exact hrealm ▸ hrows.published.mono x
    · exact fun rows hr => hrealm ▸ (hrows.txn rows hr).mono x

theorem catalogInv_fresh (p : SegmentPager MK) (realmId : Id16) :
    CatalogInv p (CatalogStore.fresh realmId) where
  sealed := nofun
  published := ⟨List.Pairwise.nil, nofun⟩
  txn := nofun

end Keep

end Pagedb.Segment
