/-
  Pagedb.Segment.Reader — authenticating and reading a sealed segment
  (`segment/authenticated_metadata.rs`, `segment/reader.rs`).

  The catalog's meta routes the open: the file's length, header, footer and
  extent index are checked against it before any page is read.
-/
import Pagedb.Lib.SortedRecords
import Pagedb.Segment.Writer

namespace Pagedb.Segment

open Lib

variable {MK : Type}

/-- `read_exact_at`. -/
def readExactAt (file : Bytes) (offset len : Nat) : Except FileError Bytes := do
  require (offset + len ≤ file.length) .unexpectedEof
  pure (slice file offset len)

/-! ## §1. The extent index -/

/-- `ExtentIndexEntry::decode`. -/
def ExtentIndexEntry.decode (bytes : Bytes) : ExtentIndexEntry :=
  let piece := fun i => (fields ENTRY_WIDTHS bytes).getD i []
  { startPageId := ofLeBytes (piece 0)
    pageCount := ofLeBytes (piece 1)
    logicalBytes := ofLeBytes (piece 3) }

/-- What the index scan carries from entry to entry. -/
structure IndexScan where
  previousEnd : Nat
  unusedTail : Bool
  entries : List ExtentIndexEntry
  deriving DecidableEq, Repr

/-- The loop body of `validate_index_entries`. -/
def validateIndexEntry (indexStartPage : PageId) (s : IndexScan) (encoded : Bytes) :
    Except FileError IndexScan :=
  if AllZero encoded then .ok { s with unusedTail := true }
  else do
    require (s.unusedTail = false) (.metadataMismatch "index.unused_tail")
    require (AllZero (slice encoded 12 4) ∧ AllZero (slice encoded 24 8))
      (.metadataMismatch "index.entry.reserved")
    let entry := ExtentIndexEntry.decode encoded
    require (entry.startPageId ≠ 0 ∧ entry.pageCount ≠ 0) (.metadataMismatch "index.entry.zero")
    let entryEnd := entry.startPageId + entry.pageCount
    require (entryEnd ≤ U64_MAX) (.geometryInvalid "index.entry_range")
    require (entryEnd ≤ indexStartPage) (.metadataMismatch "index.entry.range")
    require (s.previousEnd = 0 ∨ s.previousEnd ≤ entry.startPageId)
      (.metadataMismatch "index.entry.order")
    pure { s with previousEnd := entryEnd, entries := s.entries ++ [entry] }

/-- `validate_index_entries`. -/
def validateIndexEntries (indexStartPage : PageId) (s : IndexScan) (pageBody : Bytes) :
    Except FileError IndexScan := do
  let count := pageBody.length / EXTENT_INDEX_ENTRY_LEN
  require (AllZero (pageBody.drop (count * EXTENT_INDEX_ENTRY_LEN)))
    (.metadataMismatch "index.unused_tail")
  (fields (List.replicate count EXTENT_INDEX_ENTRY_LEN) pageBody).foldlM
    (validateIndexEntry indexStartPage) s

/-- The cipher a meta names. -/
def SegmentMeta.key (m : SegmentMeta) (cipherId : CipherId) : CipherKey :=
  ⟨m.realmId, m.segmentId, m.mkEpoch, cipherId⟩

/-- `collect_and_decode_index_page`. -/
def collectAndDecodeIndexPage (p : SegmentPager MK) (file : Bytes) (m : SegmentMeta) (mk : MK)
    (cipherId : CipherId) (pageId : PageId) : Except FileError Bytes := do
  require (pageId * p.pageSize.bytes ≤ U64_MAX) (.geometryInvalid "index.offset")
  let page ← readExactAt file (pageId * p.pageSize.bytes) p.pageSize.bytes
  let (onWireCipher, onWireEpoch) ← extractPageHeaderIds p.pageSize page
  require (onWireCipher = cipherId) (.metadataMismatch "index_page.cipher_id")
  require (onWireEpoch = m.mkEpoch) (.metadataMismatch "index_page.mk_epoch")
  openDataPage p.crypto mk p.pageSize (m.key cipherId) .index pageId page

/-- One index page of `decode_extent_index`. -/
def decodeIndexPage (p : SegmentPager MK) (file : Bytes) (m : SegmentMeta) (mk : MK)
    (f : SegmentFooterFields) (cipherId : CipherId) (s : IndexScan) (pageOffset : Nat) :
    Except FileError IndexScan := do
  require (f.indexStartPage + pageOffset ≤ U64_MAX) (.geometryInvalid "index.page_id")
  let pageBody ← collectAndDecodeIndexPage p file m mk cipherId (f.indexStartPage + pageOffset)
  validateIndexEntries f.indexStartPage s pageBody

/-- `decode_extent_index`. -/
def decodeExtentIndex (p : SegmentPager MK) (file : Bytes) (m : SegmentMeta) (mk : MK)
    (f : SegmentFooterFields) (cipherId : CipherId) : Except FileError (List ExtentIndexEntry) :=
  if f.indexPageCount = 0 then .ok []
  else do
    require (f.indexStartPage + f.indexPageCount ≤ U64_MAX) (.geometryInvalid "footer.index_range")
    require (f.indexStartPage ≠ 0 ∧ f.indexStartPage + f.indexPageCount = f.pageCount - 1)
      (.metadataMismatch "footer.index")
    require (p.pageSize.entriesPerPage ≠ 0) (.geometryInvalid "index.entry_capacity")
    let s ← (List.range f.indexPageCount).foldlM (decodeIndexPage p file m mk f cipherId)
      ⟨0, false, []⟩
    require (s.entries ≠ []) (.metadataMismatch "index.entry_count")
    pure s.entries

/-! ## §2. Authentication -/

/-- `validate_header`. -/
def validateHeader (header : SegmentHeaderFields) (m : SegmentMeta) (parentFileId : Nat)
    (pageSize : PageSize) : Except FileError Unit := do
  require (header.formatVersion = SEGMENT_FORMAT_VERSION) (.metadataMismatch "header.format_version")
  require ((CipherId.fromByte header.cipherId).isOk) (.metadataMismatch "header.cipher_id")
  require (header.cipherId = m.cipherId) (.metadataMismatch "header.cipher_id")
  require ((SegmentKind.fromByte header.segmentKind).isOk) (.metadataMismatch "header.segment_kind")
  require (header.segmentKind = m.segmentKind.asByte) (.metadataMismatch "header.segment_kind")
  require (header.segmentId = m.segmentId) (.metadataMismatch "header.segment_id")
  require (header.parentFileId = parentFileId) .foreignSegment
  require (header.parentFileId = m.parentFileId) (.metadataMismatch "header.parent_file_id")
  require (header.realmId = m.realmId) (.metadataMismatch "header.realm_id")
  require (header.mkEpoch = m.mkEpoch) (.metadataMismatch "header.mk_epoch")
  require (pageSize.log2 = header.pageSizeLog2) (.metadataMismatch "header.page_size_log2")
  require (header.flags = 0) (.metadataMismatch "header.flags")

/-- The index part of `validate_footer`. -/
def validateFooterIndex (f : SegmentFooterFields) (footerPageId : PageId) : Except FileError Unit :=
  if f.indexPageCount = 0 then
    require (f.indexStartPage = 0) (.metadataMismatch "footer.index")
  else do
    require (f.indexStartPage + f.indexPageCount ≤ U64_MAX) (.geometryInvalid "footer.index_range")
    require (f.indexStartPage ≠ 0 ∧ f.indexStartPage + f.indexPageCount = footerPageId)
      (.metadataMismatch "footer.index")

/-- `validate_footer`. -/
def validateFooter (f : SegmentFooterFields) (m : SegmentMeta) (parentFileId : Nat)
    (footerPageId : PageId) : Except FileError Unit := do
  require ((CipherId.fromByte f.cipherId).isOk) (.metadataMismatch "footer.cipher_id")
  require (f.segmentId = m.segmentId) (.metadataMismatch "footer.segment_id")
  require (f.parentFileId = parentFileId) .foreignSegment
  require (f.parentFileId = m.parentFileId) (.metadataMismatch "footer.parent_file_id")
  require (f.realmId = m.realmId) (.metadataMismatch "footer.realm_id")
  require (f.mkEpoch = m.mkEpoch) (.metadataMismatch "footer.mk_epoch")
  require (f.cipherId = m.cipherId) (.metadataMismatch "footer.cipher_id")
  require (f.formatVersion = m.formatVersion) (.metadataMismatch "footer.format_version")
  require (f.pageCount = m.pageCount) (.metadataMismatch "footer.page_count")
  require (f.totalBytes = m.totalBytes) (.metadataMismatch "footer.total_bytes")
  require (f.finalCounter = m.finalCounter) (.metadataMismatch "footer.final_counter")
  require (1 ≤ footerPageId) (.geometryInvalid "footer_page_id")
  -- one nonce per page between the header and the footer
  require (f.finalCounter = footerPageId - 1) (.metadataMismatch "footer.final_counter_geometry")
  validateFooterIndex f footerPageId

/-- `AuthenticatedSegmentMetadata`. -/
structure AuthenticatedSegmentMetadata (MK : Type) where
  footer : SegmentFooterFields
  manifest : Bytes
  masterKey : MK

/-- The geometry checks of `authenticate_segment_metadata`, before the file is read. -/
def validateGeometry (m : SegmentMeta) (pageSize fileLen : Nat) : Except FileError Unit := do
  require (m.pageCount * pageSize ≤ U64_MAX) (.geometryInvalid "page_count * page_size")
  require (2 ≤ m.pageCount) (.geometryInvalid "page_count")
  require (m.totalBytes = m.pageCount * pageSize) (.geometryInvalid "total_bytes")
  require (fileLen % pageSize = 0) (.geometryInvalid "file_alignment")
  require (fileLen = m.pageCount * pageSize) (.geometryInvalid "file_length")
  require ((m.pageCount - 1) * pageSize ≤ U64_MAX) (.geometryInvalid "footer_offset")
  require ((m.pageCount - 1) * pageSize + pageSize ≤ U64_MAX) (.geometryInvalid "footer_end")
  require ((m.pageCount - 1) * pageSize + pageSize ≤ fileLen) (.geometryInvalid "footer_bounds")

/-- `authenticate_segment_metadata`. -/
def authenticateSegmentMetadata (p : SegmentPager MK) (file : Bytes) (m : SegmentMeta)
    (parentFileId : Nat) : Except FileError (AuthenticatedSegmentMetadata MK) := do
  let cipherId ← CipherId.fromByte m.cipherId
  validateGeometry m p.pageSize.bytes file.length
  let footerPageId := m.pageCount - 1
  match p.mkFor m.mkEpoch cipherId with
  | none => throw .missingPersistedKey
  | some mk =>
    let headerBytes ← readExactAt file 0 p.pageSize.bytes
    let header ← decodeSegmentHeader headerBytes (p.crypto.mac mk) p.pageSize.bytes
    validateHeader header m parentFileId p.pageSize
    let footerBytes ← readExactAt file (footerPageId * p.pageSize.bytes) p.pageSize.bytes
    require (¬ footerIdentityIsUnverifiable p.crypto mk footerBytes) .footerUnverifiable
    let (footer, manifest) ←
      decodeSegmentFooter p.crypto mk (m.key cipherId) footerBytes p.pageSize.bytes
    validateFooter footer m parentFileId footerPageId
    let _ ← decodeExtentIndex p file m mk footer cipherId
    pure ⟨footer, manifest, mk⟩

/-! ## §3. Reading -/

/-- `SegmentReader`. -/
structure FileReader (MK : Type) where
  pager : SegmentPager MK
  segmentMeta : SegmentMeta
  file : Bytes
  masterKey : MK
  footer : SegmentFooterFields
  manifest : Bytes

/-- `finish_open`. -/
def finishOpen (p : SegmentPager MK) (m : SegmentMeta) (file : Bytes) :
    Except FileError (FileReader MK) := do
  let authenticated ← authenticateSegmentMetadata p file m p.fileId
  pure ⟨p, m, file, authenticated.masterKey, authenticated.footer, authenticated.manifest⟩

/-- The kinds `read_authenticated_page` tries, in its order. -/
def TRY_KINDS : List SegmentPageKind := [.data, .index, .overflow]

/-- The kind loop of `read_authenticated_page`: the first kind that opens, or the
    last error. -/
def tryKinds (r : FileReader MK) (key : CipherKey) (pageId : PageId) (page : Bytes) :
    List SegmentPageKind → FileError → Except FileError (SegmentPageKind × Bytes)
  | [], .checksumFailure => .error (.pageUnverifiable pageId)
  | [], e => .error e
  | kind :: kinds, _ =>
    match openDataPage r.pager.crypto r.masterKey r.pager.pageSize key kind pageId page with
    | .ok body => .ok (kind, body)
    | .error e => tryKinds r key pageId page kinds e

/-- `read_authenticated_page`. -/
def FileReader.readAuthenticatedPage (r : FileReader MK) (id : PageId) :
    Except FileError (SegmentPageKind × Bytes) := do
  require (¬ (id = 0 ∨ r.segmentMeta.pageCount - 1 ≤ id)) .notFound
  require (id * r.pager.pageSize.bytes ≤ U64_MAX) (.arithmeticOverflow "segment page offset")
  let page ← readExactAt r.file (id * r.pager.pageSize.bytes) r.pager.pageSize.bytes
  let (onWireCipher, onWireEpoch) ← extractPageHeaderIds r.pager.pageSize page
  require (onWireCipher.asByte = r.segmentMeta.cipherId) (.metadataMismatch "data_page.cipher_id")
  require (onWireEpoch = r.segmentMeta.mkEpoch) (.metadataMismatch "data_page.mk_epoch")
  tryKinds r (r.segmentMeta.key onWireCipher) id page TRY_KINDS .checksumFailure

/-- `read_page`. -/
def FileReader.readPage (r : FileReader MK) (id : PageId) : Except FileError Bytes := do
  let (_, body) ← r.readAuthenticatedPage id
  pure body

/-- `read_extent`. -/
def FileReader.readExtent (r : FileReader MK) (ref : ExtentRef) : Except FileError (List Bytes) :=
  (List.range ref.count).mapM fun i => do
    require (ref.startPageId + i ≤ U64_MAX) (.arithmeticOverflow "segment extent page id")
    r.readPage (ref.startPageId + i)

/-- `find_extent`. -/
def FileReader.findExtent (r : FileReader MK) (startPageId : PageId) :
    Except FileError (List Bytes) := do
  if r.footer.indexPageCount = 0 then throw .notFound
  let cipherId ← CipherId.fromByte r.segmentMeta.cipherId
  let index ← decodeExtentIndex r.pager r.file r.segmentMeta r.masterKey r.footer cipherId
  match binarySearchByKey ExtentIndexEntry.startPageId index startPageId with
  | some entry => r.readExtent ⟨entry.startPageId, entry.pageCount⟩
  | none => throw .notFound

end Pagedb.Segment
