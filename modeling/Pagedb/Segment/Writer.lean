/-
  Pagedb.Segment.Writer — building a segment file (`segment/writer.rs`).

  A writer appends sealed pages to a staging file, keeps the extents it was
  given, and seals the file with an extent index and a footer.  An append takes
  its nonce before the write and moves the page cursor after it, so the two part
  ways when a write fails.

  Every write has an outcome of its own: it lands, or a part of it lands and the
  call fails.
-/
import Pagedb.Segment.Format

namespace Pagedb.Segment

open Lib

/-! ## §1. The pager's side -/

/-- What segment files take from the pager of their store. -/
structure SegmentPager (MK : Type) where
  pageSize : PageSize
  crypto : Crypto MK
  cipherId : CipherId
  mkEpoch : Nat
  mkEpoch_lt : mkEpoch < 256 ^ 8
  fileId : Nat
  fileId_lt : fileId < 256 ^ 16
  mkFor : Nat → CipherId → Option MK

/-- How a `write_all_at` ends: every byte lands, or the first ones do and the
    call fails. -/
inductive WriteOutcome where
  | completes
  | fails (landed : Nat)
  deriving DecidableEq, Repr

/-- `write_all_at`: the result, and the file either way. -/
def writeAllAt (file : Bytes) (offset : Nat) (data : Bytes) :
    WriteOutcome → Except FileError Unit × Bytes
  | .fails landed => (.error .io, writeAt 0 file offset (data.take landed))
  | .completes =>
    if offset + data.length > U64_MAX then
      (.error (.arithmeticOverflow "positional write offset"), file)
    else (.ok (), writeAt 0 file offset data)

/-! ## §2. The writer -/

/-- `ExtentIndexEntry`. -/
structure ExtentIndexEntry where
  startPageId : PageId
  pageCount : Nat
  logicalBytes : Nat
  deriving DecidableEq, Repr

/-- `EXTENT_INDEX_ENTRY_LEN`. -/
def EXTENT_INDEX_ENTRY_LEN : Nat := 32

/-- The widths of an entry: start, count, padding, logical bytes, reserved. -/
def ENTRY_WIDTHS : List Nat := [8, 4, 4, 8, 8]

/-- The fields of an entry in order. -/
def ExtentIndexEntry.pieces (e : ExtentIndexEntry) : List Bytes :=
  [leBytes 8 e.startPageId, leBytes 4 e.pageCount, zeros 4, leBytes 8 e.logicalBytes, zeros 8]

/-- `ExtentIndexEntry::encode`. -/
def ExtentIndexEntry.encode (e : ExtentIndexEntry) : Bytes := e.pieces.flatten

/-- `ExtentRef`. -/
structure ExtentRef where
  startPageId : PageId
  count : Nat
  deriving DecidableEq, Repr

/-- `SegmentMeta`: the catalog value of a segment. -/
structure SegmentMeta where
  segmentId : SegmentId
  realmId : RealmId
  totalBytes : Nat
  mkEpoch : Nat
  segmentKind : SegmentKind
  parentFileId : Nat
  linkedCommit : Option CommitId
  pageCount : Nat
  finalCounter : Nat
  cipherId : UInt8
  formatVersion : Nat
  evictable : Evictable
  deriving DecidableEq, Repr

/-- `SegmentWriter`.  `key` holds the realm, the segment id, the epoch and the
    cipher the file names for life; `nonceNext` is the state of `nonce_gen`. -/
structure SegmentWriter where
  key : CipherKey
  parentFileId : Nat
  segmentKind : SegmentKind
  file : Bytes
  nonceNext : Nat
  nextPageId : PageId
  manifest : Bytes
  totalBytes : Nat
  extents : List ExtentIndexEntry
  evictable : Evictable
  rekeyFooterLayout : Option (Nat × Nat)
  deriving DecidableEq, Repr

/-- A call on a writer. -/
abbrev WriterM := EStateM FileError SegmentWriter

variable {MK : Type}

/-- `SegmentNonceGen::next_nonce`. -/
def nextNonce : WriterM Nonce := do
  let w ← get
  if w.nonceNext > Nonce.COUNTER_MAX then throw .nonceCounterExhausted
  else
    set { w with nonceNext := w.nonceNext + 1 }
    pure (w.key.nonce w.nonceNext)

/-- `pinned_master_key`. -/
def pinnedMasterKey (p : SegmentPager MK) : WriterM MK := do
  let w ← get
  match p.mkFor w.key.mkEpoch w.key.cipherId with
  | some mk => pure mk
  | none => throw .missingPersistedKey

/-- `write_all_at` on the writer's file. -/
def writeFile (offset : Nat) (data : Bytes) (io : WriteOutcome) : WriterM Unit := fun w =>
  match writeAllAt w.file offset data io with
  | (.ok _, file) => .ok () { w with file }
  | (.error e, file) => .error e { w with file }

/-- A payload in the page body, zero-padded. -/
def PageSize.pad (ps : PageSize) (payload : Bytes) : Bytes :=
  payload ++ zeros (ps.bodyLen - payload.length)

/-- The part `append_page` and the index loop of `seal` share: seal a body under
    the next nonce and write it as the next page. -/
def writePage (p : SegmentPager MK) (kind : SegmentPageKind) (body : Bytes) (io : WriteOutcome) :
    WriterM PageId := do
  let w ← get
  let pageId := w.nextPageId
  let nonce ← nextNonce
  let mk ← pinnedMasterKey p
  let page := sealDataPage p.crypto mk w.key kind pageId nonce body
  if pageId * p.pageSize.bytes > U64_MAX then throw .io
  else
    writeFile (pageId * p.pageSize.bytes) page io
    modify fun w => { w with
      nextPageId := w.nextPageId + 1
      totalBytes := satAdd w.totalBytes p.pageSize.bytes }
    pure pageId

/-- `append_page`. -/
def appendPage (p : SegmentPager MK) (kind : SegmentPageKind) (payload : Bytes) (io : WriteOutcome) :
    WriterM PageId :=
  if payload.length > p.pageSize.bodyLen then throw .payloadTooLarge
  else writePage p kind (p.pageSize.pad payload) io

/-- The loop of `append_extent`: the logical bytes of the pages. -/
def appendPages (p : SegmentPager MK) : List (Bytes × WriteOutcome) → Nat → WriterM Nat
  | [], logicalBytes => pure logicalBytes
  | (payload, io) :: pages, logicalBytes => do
    let _ ← appendPage p .data payload io
    appendPages p pages (satAdd logicalBytes payload.length)

/-- `append_extent`. -/
def appendExtent (p : SegmentPager MK) (pages : List (Bytes × WriteOutcome)) : WriterM ExtentRef :=
  if pages = [] then throw .emptyExtent
  else do
    let w ← get
    let logicalBytes ← appendPages p pages 0
    -- the count is converted once the pages are in the file
    if pages.length ≥ 2 ^ 32 then throw .payloadTooLarge
    else
      modify fun w' => { w' with
        extents := w'.extents ++ [⟨w.nextPageId, pages.length, logicalBytes⟩] }
      pure ⟨w.nextPageId, pages.length⟩

/-- `set_manifest`. -/
def setManifest (p : SegmentPager MK) (manifest : Bytes) : WriterM Unit :=
  if manifest.length > maxManifestLen p.pageSize.bytes then throw .manifestTooLarge
  else modify fun w => { w with manifest }

/-! ## §3. Create and seal -/

/-- The header of the writer's file. -/
def SegmentWriter.header (w : SegmentWriter) (ps : PageSize) : SegmentHeaderFields where
  formatVersion := SEGMENT_FORMAT_VERSION
  cipherId := w.key.cipherId.asByte
  segmentKind := w.segmentKind.asByte
  segmentId := w.key.segmentId
  parentFileId := w.parentFileId
  realmId := w.key.realmId
  mkEpoch := w.key.mkEpoch
  pageSizeLog2 := ps.log2
  flags := 0

/-- A writer before its header is written. -/
def SegmentWriter.fresh (p : SegmentPager MK) (realmId : RealmId) (segmentId : SegmentId)
    (segmentKind : SegmentKind) : SegmentWriter where
  key := ⟨realmId, segmentId, p.mkEpoch, p.cipherId⟩
  parentFileId := p.fileId
  segmentKind
  file := []
  nonceNext := 1
  nextPageId := 1
  manifest := []
  totalBytes := p.pageSize.bytes
  extents := []
  evictable := .authoritative
  rekeyFooterLayout := none

/-- A 16-byte id, as a number. -/
abbrev Id16 := Fin (256 ^ 16)

instance instNeZeroId16 : NeZero (256 ^ 16) := ⟨by decide⟩

/-- `create_segment` with the id it drew, over `SegmentWriter::create_in`. -/
def createSegment (p : SegmentPager MK) (realmId segmentId : Id16) (segmentKind : SegmentKind)
    (io : WriteOutcome) : Except FileError SegmentWriter :=
  let w := SegmentWriter.fresh p realmId.val segmentId.val segmentKind
  match p.mkFor p.mkEpoch p.cipherId with
  | none => .error .missingPersistedKey
  | some mk => do
    let header ← encodeSegmentHeader (w.header p.pageSize) (p.crypto.mac mk) p.pageSize.bytes
    match writeAllAt w.file 0 header io with
    | (.ok _, file) => pure { w with file }
    | (.error e, _) => throw e

/-- The entries one index page holds. -/
def PageSize.entriesPerPage (ps : PageSize) : Nat := ps.bodyLen / EXTENT_INDEX_ENTRY_LEN

/-- The body of index page `pageIdx`. -/
def indexBody (ps : PageSize) (extents : List ExtentIndexEntry) (pageIdx : Nat) : Bytes :=
  ps.pad (((extents.drop (pageIdx * ps.entriesPerPage)).take ps.entriesPerPage).map
    ExtentIndexEntry.encode).flatten

/-- The index loop of `seal`, from page `pageIdx` on. -/
def writeIndexPages (p : SegmentPager MK) (extents : List ExtentIndexEntry)
    (io : Nat → WriteOutcome) : Nat → Nat → WriterM Unit
  | 0, _ => pure ()
  | remaining + 1, pageIdx => do
    let _ ← writePage p .index (indexBody p.pageSize extents pageIdx) (io pageIdx)
    writeIndexPages p extents io remaining (pageIdx + 1)

/-- How the writes of a seal end. -/
structure SealOutcome where
  index : Nat → WriteOutcome
  footer : WriteOutcome
  synced : Bool

/-- The index block of `seal`: its first page and its length. -/
def writeIndexBlock (p : SegmentPager MK) (io : Nat → WriteOutcome) : WriterM (Nat × Nat) := do
  let w ← get
  match w.rekeyFooterLayout with
  | some (start, count) =>
    if count = 0 ∧ start ≠ 0 ∨ count ≠ 0 ∧ (start = 0 ∨ start + count ≠ w.nextPageId) then
      throw (.geometryInvalid "rekey.index_layout")
    else pure (start, count)
  | none =>
    if w.extents = [] then pure (0, 0)
    else
      let pagesNeeded := (w.extents.length + p.pageSize.entriesPerPage - 1) / p.pageSize.entriesPerPage
      if pagesNeeded ≥ 2 ^ 32 then throw .payloadTooLarge
      else
        writeIndexPages p w.extents io pagesNeeded 0
        pure (w.nextPageId, pagesNeeded)

/-- The footer fields of a writer whose index block is written. -/
def SegmentWriter.footer (w : SegmentWriter) (ps : PageSize) (index : Nat × Nat) :
    SegmentFooterFields where
  formatVersion := FORMAT_VERSION
  cipherId := w.key.cipherId.asByte
  segmentId := w.key.segmentId
  parentFileId := w.parentFileId
  realmId := w.key.realmId
  mkEpoch := w.key.mkEpoch
  pageCount := w.nextPageId + 1
  totalBytes := (w.totalBytes + ps.bytes) % 2 ^ 64
  finalCounter := w.nonceNext - 1
  indexStartPage := index.1
  indexPageCount := index.2

/-- The meta `seal` returns beside the footer it wrote. -/
def SegmentWriter.sealedMeta (w : SegmentWriter) (f : SegmentFooterFields) : SegmentMeta where
  segmentId := w.key.segmentId
  realmId := w.key.realmId
  totalBytes := f.totalBytes
  mkEpoch := w.key.mkEpoch
  segmentKind := w.segmentKind
  parentFileId := w.parentFileId
  linkedCommit := none
  pageCount := f.pageCount
  finalCounter := f.finalCounter
  cipherId := w.key.cipherId.asByte
  formatVersion := FORMAT_VERSION
  evictable := w.evictable

/-- `SegmentWriter::seal`.  The writer is consumed; its file is what stays. -/
def sealSegment (p : SegmentPager MK) (io : SealOutcome) : WriterM SegmentMeta := do
  let mk ← pinnedMasterKey p
  let index ← writeIndexBlock p io.index
  let w ← get
  let f := w.footer p.pageSize index
  match encodeSegmentFooter p.crypto mk w.key f w.manifest p.pageSize.bytes with
  | .error e => throw e
  | .ok page =>
    if w.nextPageId * p.pageSize.bytes > U64_MAX then throw .io
    else
      writeFile (w.nextPageId * p.pageSize.bytes) page io.footer
      if io.synced = false then throw .io else pure (w.sealedMeta f)

/-! ## §4. A writer's life -/

/-- A call before the seal. -/
inductive WriterCall where
  | appendPage (kind : SegmentPageKind) (payload : Bytes) (io : WriteOutcome)
  | appendExtent (pages : List (Bytes × WriteOutcome))
  | setManifest (manifest : Bytes)

/-- What the caller was told: the pages and extents whose call returned `Ok`,
    and the manifest last accepted. -/
structure Receipts where
  pages : List (PageId × Bytes)
  extents : List (ExtentRef × List Bytes)
  manifest : Bytes
  deriving DecidableEq, Repr

/-- A writer and the receipts of its calls. -/
structure WriterLife where
  writer : SegmentWriter
  receipts : Receipts

/-- A writer nothing was appended to. -/
def WriterLife.start (w : SegmentWriter) : WriterLife := ⟨w, ⟨[], [], []⟩⟩

/-- A call and what its result adds to the receipts. -/
def WriterLife.after {α : Type} (life : WriterLife) (record : α → Receipts → Receipts) :
    EStateM.Result FileError SegmentWriter α → WriterLife
  | .ok a w => ⟨w, record a life.receipts⟩
  | .error _ w => ⟨w, life.receipts⟩

/-- One call on a writer. -/
def WriterLife.step (p : SegmentPager MK) (life : WriterLife) : WriterCall → WriterLife
  | .appendPage kind payload io =>
    life.after (fun pageId r => { r with pages := r.pages ++ [(pageId, payload)] })
      (appendPage p kind payload io life.writer)
  | .appendExtent pages =>
    life.after (fun ref r => { r with extents := r.extents ++ [(ref, pages.map Prod.fst)] })
      (appendExtent p pages life.writer)
  | .setManifest manifest =>
    life.after (fun _ r => { r with manifest }) (setManifest p manifest life.writer)

end Pagedb.Segment
