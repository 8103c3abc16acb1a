/-
  Pagedb.Segment.Repack — the segment part of a compaction
  (`compaction/full.rs`, `replace_segment_compact`).

  A segment is repacked when its live file is longer than the segment by more than
  a twentieth.  The pages are copied through the ordinary reader, and that reader
  accepts a file only when it is exactly as long as its meta says: the file that
  asks for a repack is one the repack cannot open.

  Main results:
    * `finishOpen_length`     — the length of a file the reader accepts;
    * `compact_keeps_segments` — a compaction leaves every row and file as it was, and
      succeeds exactly when no file is over the threshold;
    * `trailing_bytes_stop_compaction` — one that is, behind an intact segment.
-/
import Pagedb.Segment.Reconcile

namespace Pagedb.Segment

open Lib List

variable {MK : Type}

/-! ## §1. One segment -/

/-- What the repacks work on: the rows of the catalog, the segment files, the last
    commit, and the number of segments repacked. -/
structure Repacking where
  rows : Rows
  dir : SegmentDir
  commit : CommitId
  repacked : Nat

abbrev RepackM := EStateM FileError Repacking

/-- A read of the files or rows. -/
def reading {α : Type} : Except FileError α → RepackM α
  | .ok a => pure a
  | .error e => throw e

/-- The garbage a live file may carry. -/
def repackThreshold (m : SegmentMeta) : Nat := satAdd m.totalBytes (m.totalBytes / 20)

/-- The copy loop of `repack_one_segment`: every page between header and footer is
    appended as a data page. -/
def copyPages (p : SegmentPager MK) (reader : FileReader MK) : List PageId → WriterM Unit
  | [] => pure ()
  | id :: ids => do
    match reader.readPage id with
    | .ok body => let _ ← appendPage p .data body .completes
    | .error .notFound => pure ()
    | .error e => throw e
    copyPages p reader ids

/-- `replace_segment_compact`: the row names the new segment, the old file is retired
    and the new one is live. -/
def replaceSegmentCompact (realm : RealmId) (name : Bytes) (old : SegmentId) (new : SegmentMeta)
    (file : Bytes) : RepackM Unit := do
  let key ← reading (segmentKey realm name)
  modify fun st => { st with
    rows := setRecord key (encodeSegmentMeta new) st.rows
    dir := { st.dir with live := (new.segmentId, file) :: dropRecord old st.dir.live }
    commit := st.commit + 1 }

/-- `repack_one_segment`.  `fresh` are the ids it draws. -/
def repackOneSegment (p : SegmentPager MK) (realm : RealmId) (fresh : Nat → Id16)
    (row : Bytes × SegmentMeta) : RepackM Unit := do
  let (key, m) := row
  let st ← get
  match find m.segmentId st.dir.live with
  | none => throw .io
  | some file =>
    if file.length ≤ repackThreshold m then pure ()
    else do
      let name ← reading (validateSegmentKey key m)
      let reader ← reading (finishOpen p m file)
      let w ← reading (createSegment p (Fin.ofNat _ m.realmId) (fresh st.repacked) m.segmentKind
        .completes)
      match (copyPages p reader (List.range' 1 (m.pageCount - 1 - 1)) >>= fun _ =>
        sealSegment p cleanSeal) w with
      | .error e _ => throw e
      | .ok new w => do
        replaceSegmentCompact realm name m.segmentId new w.file
        modify fun st => { st with repacked := st.repacked + 1 }

/-! ## §2. All segments -/

/-- `segment_rows_from`. -/
def segmentRowsFrom (rows : Rows) (cursor : Bytes) : Except FileError (List (Bytes × SegmentMeta)) :=
  (collectKindBatch rows 0x01 SEGMENT_ROW_BATCH cursor).mapM fun r => do
    let m ← decodeSegmentMeta r.2
    pure (r.1, m)

/-- The loop of `compact_now` over the segment rows.  A batch that is not empty moves
    the cursor, so the rows bound the turns. -/
def repackFrom (p : SegmentPager MK) (realm : RealmId) (fresh : Nat → Id16) :
    Nat → Bytes → RepackM Unit
  | 0, _ => throw .diverges
  | turns + 1, cursor => do
    let batch ← reading (segmentRowsFrom (← get).rows cursor)
    match batch.getLast? with
    | none => pure ()
    | some last => do
      batch.forM (repackOneSegment p realm fresh)
      if batch.length < SEGMENT_ROW_BATCH then pure ()
      else repackFrom p realm fresh turns (last.1 ++ [0])

/-- The segment part of `compact_now`: whether it was declined for a pinned reader. -/
def compactSegments (p : SegmentPager MK) (realm : RealmId) (fresh : Nat → Id16)
    (readersPinned : Bool) : RepackM Bool := do
  if readersPinned then pure true
  else
    repackFrom p realm fresh ((← get).rows.length + 1) [0x01]
    pure false

/-! ## §3. Nothing is repacked -/

section Keep

variable {p : SegmentPager MK} {realm : RealmId} {fresh : Nat → Id16} {m : SegmentMeta} {file : Bytes}
  {st : Repacking}

/-- **A file the reader accepts** is as long as its meta says. -/
theorem finishOpen_length {reader : FileReader MK} (h : finishOpen p m file = .ok reader) :
    file.length = m.totalBytes ∧ m.totalBytes ≤ U64_MAX := by
  obtain ⟨a, h, -⟩ := except_bind_eq_ok.mp h
  unfold authenticateSegmentMetadata at h
  obtain ⟨_, -, h⟩ := except_bind_eq_ok.mp h
  obtain ⟨_, hgeometry, -⟩ := except_bind_eq_ok.mp h
  unfold validateGeometry at hgeometry
  obtain ⟨hfit, h⟩ := require_bind_eq_ok.mp hgeometry
  obtain ⟨-, h⟩ := require_bind_eq_ok.mp h
  obtain ⟨htotal, h⟩ := require_bind_eq_ok.mp h
  obtain ⟨-, h⟩ := require_bind_eq_ok.mp h
  obtain ⟨hlen, -⟩ := require_bind_eq_ok.mp h
  omega

theorem finishOpen_over {reader : FileReader MK} (h : ¬ file.length ≤ repackThreshold m) :
    finishOpen p m file ≠ .ok reader := by
  intro hopen
  obtain ⟨hlen, hfit⟩ := finishOpen_length hopen
  unfold repackThreshold satAdd at h
  omega

/-- The state stays what it was. -/
abbrev Untouched {α : Type} (st : Repacking) (P : α → Prop) (x : RepackM α) : Prop :=
  Safe (· = st) (fun _ => True) P x

theorem reading_untouched {α : Type} {x : Except FileError α} {P : α → Prop}
    (h : ∀ a, x = .ok a → P a) : Untouched st P (reading x) := by
  cases x with
  | error e => exact Safe.throw trivial
  | ok a => exact Safe.pure (h a rfl)

/-- The segment's live file is there and within the threshold. -/
def Repacking.Holds (st : Repacking) (m : SegmentMeta) : Prop :=
  ∃ file, find m.segmentId st.dir.live = some file ∧ file.length ≤ repackThreshold m

/-- **One segment**: within the threshold it is left alone, above it the open fails. -/
theorem repackOneSegment_untouched (row : Bytes × SegmentMeta) :
    Untouched st (fun _ => st.Holds row.2) (repackOneSegment p realm fresh row) := by
  refine Safe.get fun s hs => ?_
  obtain rfl := hs.symm
  unfold Repacking.Holds
  cases find row.2.segmentId st.dir.live with
  | none => exact Safe.throw trivial
  | some file =>
    refine Safe.ite (fun hlen => Safe.pure ⟨file, rfl, hlen⟩) fun hover => ?_
    refine (reading_untouched fun _ _ => trivial).bind fun name _ => ?_
    refine (reading_untouched (P := fun _ => False) fun reader hopen => ?_).bind fun _ hfalse =>
      hfalse.elim
    exact finishOpen_over hover hopen

theorem repackBatch_untouched (batch : List (Bytes × SegmentMeta)) :
    Untouched st (fun _ => ∀ row ∈ batch, st.Holds row.2)
      (batch.forM (repackOneSegment p realm fresh)) := by
  induction batch with
  | nil => exact Safe.pure fun _ h => absurd h not_mem_nil
  | cons row batch ih =>
    exact (repackOneSegment_untouched row).bind fun _ hrow => ih.weaken fun _ hrest =>
      forall_mem_cons.mpr ⟨hrow, hrest⟩

/-- The row decodes, and names a segment whose live file is within the threshold. -/
def Repacking.Fits (st : Repacking) (row : Bytes × Bytes) : Prop :=
  ∃ m, decodeSegmentMeta row.2 = .ok m ∧ st.Holds m

/-- Every segment row names a live file within the threshold. -/
def Repacking.Within (st : Repacking) : Prop :=
  ∀ row ∈ st.rows, ofKind 0x01 row.1 = true → st.Fits row

open Classical in
/-- A walk over the rows of a state that stops at a row that does not fit. -/
noncomputable def Repacking.walk (st : Repacking) : Nat → Bytes → Except FileError Unit :=
  fun turns cursor => streamPages (collectKindBatch st.rows 0x01 SEGMENT_ROW_BATCH)
    (fun k => k ++ [0]) SEGMENT_ROW_BATCH FileError.diverges
    (fun _ row => require (st.Fits row) .io) turns cursor ()

open Classical in
theorem foldlM_fits {rows : Rows} :
    rows.foldlM (fun _ row => require (st.Fits row) FileError.io) () = .ok ()
      ↔ ∀ row ∈ rows, st.Fits row := by
  induction rows with
  | nil => exact ⟨fun _ _ h => absurd h not_mem_nil, fun _ => rfl⟩
  | cons row rows ih => rw [foldlM_cons, require_bind_eq_ok, forall_mem_cons, ih]

/-- A batch of rows that decode, and whose segments all hold. -/
theorem fits_of_rows {batch : Rows} {metas : List (Bytes × SegmentMeta)}
    (h : (batch.mapM fun r => do
        let m ← decodeSegmentMeta r.2
        pure (r.1, m)) = Except.ok metas) (hall : ∀ row ∈ metas, st.Holds row.2) :
    (∀ row ∈ batch, st.Fits row) ∧ metas.map Prod.fst = batch.map Prod.fst := by
  have hrows := mapM_eq_ok_iff.mp h
  clear h
  induction hrows with
  | nil => exact ⟨fun _ h => absurd h not_mem_nil, rfl⟩
  | cons hrow _ ih =>
    obtain ⟨m, hm, heq⟩ := except_bind_eq_ok.mp hrow
    cases heq
    obtain ⟨hfirst, hrest⟩ := forall_mem_cons.mp hall
    obtain ⟨hfits, hkeys⟩ := ih hrest
    exact ⟨forall_mem_cons.mpr ⟨⟨m, hm, hfirst⟩, hfits⟩, by rw [map_cons, map_cons, hkeys]⟩

/-- **All segments**: nothing changes, and a pass that returns has found every row to
    fit. -/
theorem repackFrom_untouched (turns : Nat) : ∀ cursor : Bytes,
    Untouched st (fun _ => st.walk turns cursor = .ok ())
      (repackFrom p realm fresh turns cursor) := by
  induction turns with
  | zero => exact fun _ => Safe.throw trivial
  | succ turns ih =>
    intro cursor
    refine Safe.get fun s hs => ?_
    obtain rfl := hs.symm
    refine (reading_untouched fun metas hread => hread).bind fun metas hread => ?_
    unfold segmentRowsFrom at hread
    unfold Repacking.walk streamPages
    generalize collectKindBatch st.rows 0x01 SEGMENT_ROW_BATCH cursor = batch at hread ⊢
    have hlen : metas.length = batch.length := (mapM_eq_ok_iff.mp hread).length_eq.symm
    cases hmetas : metas.getLast? with
    | none =>
      rw [getLast?_eq_none_iff.mp hmetas, length_nil] at hlen
      rw [eq_nil_of_length_eq_zero hlen.symm]
      exact Safe.pure rfl
    | some last =>
      refine (repackBatch_untouched metas).bind fun _ hall => ?_
      obtain ⟨hfits, hkeys⟩ := fits_of_rows hread hall
      have hlast : last.1 = (batch.getLast?.map Prod.fst).getD [] := by
        rw [← getLast?_map, ← hkeys, getLast?_map, hmetas]
        rfl
      cases hbatch : batch.getLast? with
      | none =>
        rw [getLast?_eq_none_iff.mp hbatch, length_nil] at hlen
        rw [eq_nil_of_length_eq_zero hlen] at hmetas
        cases hmetas
      | some x =>
        rw [hbatch] at hlast
        dsimp only
        rw [ok_bind (foldlM_fits.mpr hfits), hlen, hlast]
        exact Safe.ite (fun hshort => by rw [if_pos hshort]; exact Safe.pure rfl) fun hfull => by
          rw [if_neg hfull]
          exact ih _

/-- The row with its meta. -/
def metaRow (row : Bytes × Bytes) : Bytes × SegmentMeta :=
  (row.1, (decodeSegmentMeta row.2).toOption.getD pagedMeta)

theorem metaRow_eq {row : Bytes × Bytes} (h : decodeSegmentMeta row.2 = .ok m) :
    metaRow row = (row.1, m) := by
  unfold metaRow
  rw [h]
  rfl

theorem repackOneSegment_within {key : Bytes} (hfile : find m.segmentId st.dir.live = some file)
    (hlen : file.length ≤ repackThreshold m) :
    repackOneSegment p realm fresh (key, m) st = .ok () st := by
  unfold repackOneSegment
  dsimp only
  rw [get_bind, hfile]
  dsimp only
  rw [if_pos hlen]
  rfl

theorem Repacking.Within.batch (h : st.Within) {batch : Rows} (hsub : ∀ row ∈ batch, row ∈ st.rows)
    (hkind : ∀ row ∈ batch, ofKind 0x01 row.1 = true) :
    (batch.mapM fun r => do
        let m ← decodeSegmentMeta r.2
        pure (r.1, m)) = Except.ok (batch.map metaRow)
      ∧ (batch.map metaRow).forM (repackOneSegment p realm fresh) st = .ok () st := by
  refine ⟨mapM_eq_ok fun row hrow => ?_, ?_⟩
  · obtain ⟨m, hm, -⟩ := h row (hsub row hrow) (hkind row hrow)
    rw [ok_bind hm, metaRow_eq hm]
    rfl
  · induction batch with
    | nil => rfl
    | cons row batch ih =>
      obtain ⟨hrow, hrest⟩ := forall_mem_cons.mp hsub
      obtain ⟨hfirst, hkinds⟩ := forall_mem_cons.mp hkind
      obtain ⟨m, hm, file, hfile, hlen⟩ := h row hrow hfirst
      rw [map_cons, metaRow_eq hm]
      exact (bind_of_ok (repackOneSegment_within hfile hlen)).trans (ih hrest hkinds)

theorem repackFrom_within (h : st.Within) (turns : Nat) : ∀ cursor : Bytes,
    st.walk turns cursor = .ok () → repackFrom p realm fresh turns cursor st = .ok () st := by
  induction turns with
  | zero => exact fun _ hwalk => by cases hwalk
  | succ turns ih =>
    intro cursor hwalk
    unfold Repacking.walk streamPages at hwalk
    generalize hbatch : collectKindBatch st.rows 0x01 SEGMENT_ROW_BATCH cursor = batch at hwalk
    have hsub : ∀ row ∈ batch, row ∈ st.rows := by
      rw [← hbatch]
      exact fun x hx => mem_of_mem_filter (mem_of_mem_take ((takeWhile_sublist _).mem hx))
    have hkind : ∀ row ∈ batch, ofKind 0x01 row.1 = true := by
      rw [← hbatch]
      exact all_eq_true.mp all_takeWhile
    obtain ⟨hmetas, hrun⟩ := @Repacking.Within.batch _ p realm fresh st h batch hsub hkind
    have hread : segmentRowsFrom st.rows cursor = .ok (batch.map metaRow) := by
      unfold segmentRowsFrom
      rw [hbatch]
      exact hmetas
    unfold repackFrom
    rw [get_bind, hread]
    show (match (batch.map metaRow).getLast? with
      | none => pure ()
      | some last => _ : RepackM Unit) st = _
    rw [getLast?_map]
    cases hlast : batch.getLast? with
    | none => rfl
    | some last =>
      rw [hlast] at hwalk
      have hfits : ∀ row ∈ batch, st.Fits row := fun row hrow => h row (hsub row hrow) (hkind row hrow)
      dsimp only [Option.map_some] at hwalk ⊢
      rw [ok_bind (foldlM_fits.mpr hfits)] at hwalk
      rw [bind_of_ok hrun, length_map]
      split_ifs at hwalk ⊢ with hshort
      · rfl
      · exact ih _ hwalk

/-- The walk meets every segment row once. -/
theorem Repacking.walk_eq_ok (hasc : Ascending st.rows) :
    st.walk (st.rows.length + 1) [0x01] = .ok () ↔ st.Within := by
  have hall : st.walk (st.rows.length + 1) [0x01] = _ := streamKind_eq hasc (by decide)
  rw [hall, foldlM_fits]
  exact forall_congr' fun row => by rw [mem_within, and_imp]

/-- **A compaction never repacks a segment.**  Whatever it returns, the rows and files
    are those of before, so every name finds the same meta and the same bytes.  With no
    reader pinned it returns `Ok` exactly when every segment row names a live file within
    the threshold: one file above it, and the compaction fails. -/
theorem compact_keeps_segments (p : SegmentPager MK) (realm : RealmId) (fresh : Nat → Id16)
    (readersPinned : Bool) (st : Repacking) (hasc : Ascending st.rows) :
    endState (compactSegments p realm fresh readersPinned st) = st
      ∧ (compactSegments p realm fresh readersPinned st = .ok readersPinned st
        ↔ readersPinned = true ∨ st.Within)
      ∧ (readersPinned = false → ¬ st.Within →
        ∃ e, compactSegments p realm fresh readersPinned st = .error e st) := by
  cases readersPinned with
  | true => exact ⟨rfl, ⟨fun _ => Or.inl rfl, fun _ => rfl⟩, fun h => by cases h⟩
  | false =>
    have hkeep : Untouched st (fun _ => st.walk (st.rows.length + 1) [0x01] = .ok ())
        (compactSegments p realm fresh false) :=
      Safe.get fun s hs => by
        obtain rfl := hs.symm
        exact (repackFrom_untouched _ _).bind fun _ hwalk => Safe.pure hwalk
    have hend := hkeep.keeps st rfl
    refine ⟨hend, ⟨fun hok => Or.inr ((Repacking.walk_eq_ok hasc).mp (hkeep.value st _ _ rfl hok)),
      fun h => ?_⟩, fun _ hnot => ?_⟩
    · have hwithin : st.Within := h.resolve_left Bool.false_ne_true
      exact bind_of_ok (repackFrom_within hwithin _ _ ((Repacking.walk_eq_ok hasc).mpr hwithin))
    · cases hrun : compactSegments p realm fresh false st with
      | ok b t => exact absurd ((Repacking.walk_eq_ok hasc).mp (hkeep.value st b t rfl hrun)) hnot
      | error e t =>
        rw [hrun] at hend
        exact ⟨e, congrArg _ hend⟩

end Keep

/-- The store of realm 3 with the segment linked as `a` and as `b`, over this live file. -/
def pagedStore (file : Bytes) : Repacking := ⟨pagedRows 3, ⟨[], [(5, file)], []⟩, 1, 0⟩

theorem finishOpen_paged : ∃ file reader,
    finishOpen plainPager pagedMeta file = .ok reader ∧ file.length = pagedMeta.totalBytes := by
  obtain ⟨file, hfile⟩ := createAndSeal_paged
  have hsealed : SealedOk plainPager (pagedMeta, file) :=
    createAndSeal_ok (public_createPaged (CatalogStore.fresh 3)) hfile
  obtain ⟨a, ha⟩ := hsealed.accepted
  exact ⟨file, _, ok_bind ha, (finishOpen_length (ok_bind ha)).1⟩

/-- The file of the segment is within the threshold. -/
theorem compact_keeps_segments_paged : ∃ file reader,
    finishOpen plainPager pagedMeta file = .ok reader
    ∧ compactSegments plainPager 3 (fun _ => 6) false (pagedStore file)
      = .ok false (pagedStore file) := by
  obtain ⟨file, reader, hopen, hlen⟩ := finishOpen_paged
  have hrows : ∀ row ∈ pagedRows 3, ofKind 0x01 row.1 = true →
      decodeSegmentMeta row.2 = .ok pagedMeta := by decide +kernel
  have hsorted : Ascending (pagedRows 3) := by
    unfold Ascending
    decide +kernel
  refine ⟨file, reader, hopen, (compact_keeps_segments plainPager 3 (fun _ => 6) false
    (pagedStore file) hsorted).2.1.mpr
      (Or.inr fun row hrow hkind => ⟨pagedMeta, hrows row hrow hkind, file, rfl, ?_⟩)⟩
  rw [hlen]
  decide

/-- The same segment with 8192 bytes of garbage behind it: the file starts with an
    intact segment and is over the threshold, and the compaction fails. -/
theorem trailing_bytes_stop_compaction : ∃ file reader,
    finishOpen plainPager pagedMeta file = .ok reader ∧ file.length = pagedMeta.totalBytes
    ∧ repackThreshold pagedMeta < (file ++ zeros 8192).length
    ∧ compactSegments plainPager 3 (fun _ => 6) false (pagedStore (file ++ zeros 8192))
      = .error (.geometryInvalid "file_length") (pagedStore (file ++ zeros 8192)) := by
  obtain ⟨file, reader, hopen, hlen⟩ := finishOpen_paged
  have hlong : (file ++ zeros 8192).length = 32768 := by
    rw [length_append, hlen, zeros_length]
    rfl
  have hover : ¬ 32768 ≤ repackThreshold pagedMeta := by decide
  refine ⟨file, reader, hopen, hlen, by rw [hlong]; exact Nat.lt_of_not_le hover, ?_⟩
  generalize file ++ zeros 8192 = long at hlong
  have hrefused : finishOpen plainPager pagedMeta long = .error (.geometryInvalid "file_length") := by
    unfold finishOpen authenticateSegmentMetadata
    rw [hlong]
    rfl
  have hone : repackOneSegment plainPager 3 (fun _ => 6) (segmentRowKey 3 [0x61], pagedMeta)
      (pagedStore long) = .error (.geometryInvalid "file_length") (pagedStore long) := by
    unfold repackOneSegment
    dsimp only
    rw [get_bind, show find pagedMeta.segmentId (pagedStore long).dir.live = some long from rfl]
    dsimp only
    rw [hlong, if_neg hover, hrefused]
    rfl
  have hrows : segmentRowsFrom (pagedRows 3) [0x01]
      = .ok [(segmentRowKey 3 [0x61], pagedMeta), (segmentRowKey 3 [0x62], pagedMeta)] := by
    decide +kernel
  unfold compactSegments
  rw [if_neg Bool.false_ne_true, get_bind]
  refine bind_of_error ?_
  unfold repackFrom
  rw [get_bind, show (pagedStore long).rows = pagedRows 3 from rfl, hrows]
  show ((_ :: _ : List (Bytes × SegmentMeta)).forM (repackOneSegment _ _ _) >>= _) _ = _
  exact bind_of_error (bind_of_error hone)

end Pagedb.Segment
