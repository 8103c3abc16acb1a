/-
  Pagedb.Segment.Format — the bytes of a segment file
  (`pager/format/data_page.rs`, `structural_header.rs`, `segment_footer/`,
  `segment/types.rs`, `crypto/aad.rs`).

  A segment file is a header page, sealed data and index pages, and a footer
  page.  Every page has the store's page size.  A record is the concatenation of
  its fields, and is decoded by cutting it at the same widths.

  The 16-byte ids are numbers below `256 ^ 16`, most significant byte first.

  Main results: `decodeSegmentHeader_encode`, `decodeSegmentFooter_encode`,
  `openDataPage_seal`.
-/
import Pagedb.Crypto.Nonce
import Pagedb.Lib.Bytes
import Pagedb.Lib.Exec
import Pagedb.Lib.Layout
import Pagedb.Txn.Segment

namespace Pagedb.Segment

open Lib List

/-! ## §1. Errors and ids -/

/-- `PagedbError`, as far as segment files and their catalog rows raise it.
    `diverges` is no error of the source: it marks a loop out of turns. -/
inductive FileError where
  | unsupported
  | payloadTooLarge
  | emptyExtent
  | manifestTooLarge
  | nonceCounterExhausted
  | notFound
  | illegalPageKind
  | checksumFailure
  | missingPersistedKey
  | io
  | unexpectedEof
  | arithmeticOverflow (label : String)
  | formatVersionUnsupported (stored supported : Nat)
  | geometryInvalid (field : String)
  | metadataMismatch (field : String)
  | catalogRowInvalid (field : String)
  | structuralHeaderInvalid (header field : String)
  | footerFramingInvalid (field : String)
  | footerUnverifiable
  | manifestUnverifiable
  | pageUnverifiable (pageId : PageId)
  | foreignSegment
  | segmentMissing
  | nameTooLong
  | alreadyLinked
  | notLinked
  | segmentEpochStale
  | quotaExceeded
  | diverges
  deriving DecidableEq, Repr

/-- `CipherId`. -/
inductive CipherId where
  | plaintextMac
  | aes256Gcm
  | chaCha20Poly1305
  deriving DecidableEq, Repr

/-- `CipherId::as_byte`. -/
def CipherId.asByte : CipherId → UInt8
  | .plaintextMac => 0
  | .aes256Gcm => 1
  | .chaCha20Poly1305 => 2

/-- `CipherId::from_byte`. -/
def CipherId.fromByte (b : UInt8) : Except FileError CipherId :=
  if b = 0 then .ok .plaintextMac
  else if b = 1 then .ok .aes256Gcm
  else if b = 2 then .ok .chaCha20Poly1305
  else .error .unsupported

@[simp] theorem CipherId.fromByte_asByte (c : CipherId) : fromByte c.asByte = .ok c := by
  cases c <;> rfl

/-- `SegmentKind`. -/
inductive SegmentKind where
  | unspecified
  deriving DecidableEq, Repr

/-- `SegmentKind::as_byte`. -/
def SegmentKind.asByte : SegmentKind → UInt8
  | .unspecified => 0

/-- `SegmentKind::from_byte`. -/
def SegmentKind.fromByte (b : UInt8) : Except FileError SegmentKind :=
  if b = 0 then .ok .unspecified else .error .unsupported

@[simp] theorem SegmentKind.fromByte_asByte (k : SegmentKind) : fromByte k.asByte = .ok k := by
  cases k
  rfl

/-- `Evictable`. -/
inductive Evictable where
  | authoritative
  | replaceable
  deriving DecidableEq, Repr

/-- The page kinds a segment holds, `SegmentPageKind`. -/
inductive SegmentPageKind where
  | data
  | index
  | overflow
  deriving DecidableEq, Repr

/-- The byte of a segment page kind. -/
def SegmentPageKind.asByte : SegmentPageKind → UInt8
  | .data => 0x10
  | .index => 0x11
  | .overflow => 0x12

/-- `PageKind::from_byte` accepts this byte. -/
def isPageKind (b : UInt8) : Bool :=
  (0x01 ≤ b && b ≤ 0x09) || (0x10 ≤ b && b ≤ 0x12)

@[simp] theorem SegmentPageKind.isPageKind_asByte (k : SegmentPageKind) :
    isPageKind k.asByte = true := by
  cases k <;> rfl

theorem SegmentPageKind.asByte_inj {k l : SegmentPageKind} (h : k.asByte = l.asByte) : k = l := by
  cases k <;> cases l <;> first | rfl | cases h

/-- The all-zero byte string. -/
def zeros (n : Nat) : Bytes := List.replicate n 0

@[simp] theorem zeros_length (n : Nat) : (zeros n).length = n := length_replicate

/-- Every byte is zero. -/
def AllZero (bytes : Bytes) : Prop := ∀ b ∈ bytes, b = 0

instance (bytes : Bytes) : Decidable (AllZero bytes) :=
  inferInstanceAs (Decidable (∀ b ∈ bytes, b = 0))

@[simp] theorem allZero_zeros (n : Nat) : AllZero (zeros n) := fun _ hb => eq_of_mem_replicate hb

/-- `page_size_to_log2`, and `page_size_log2` of the reading side. -/
def pageSizeToLog2 (pageSize : Nat) : Option UInt8 :=
  if pageSize = 4096 then some 12
  else if pageSize = 8192 then some 13
  else if pageSize = 16384 then some 14
  else if pageSize = 32768 then some 15
  else if pageSize = 65536 then some 16
  else none

/-- `validate_page_size_log2`. -/
def validatePageSizeLog2 (log2 : UInt8) : Option Nat :=
  if 12 ≤ log2 ∧ log2 ≤ 16 then some (2 ^ log2.toNat) else none

/-- A page size of the format, with its logarithm. -/
structure PageSize where
  bytes : Nat
  log2 : UInt8
  log2_eq : pageSizeToLog2 bytes = some log2

/-- The five sizes. -/
theorem PageSize.cases_eq (ps : PageSize) :
    (ps.bytes = 4096 ∧ ps.log2 = 12) ∨ (ps.bytes = 8192 ∧ ps.log2 = 13)
      ∨ (ps.bytes = 16384 ∧ ps.log2 = 14) ∨ (ps.bytes = 32768 ∧ ps.log2 = 15)
      ∨ (ps.bytes = 65536 ∧ ps.log2 = 16) := by
  have h := ps.log2_eq
  unfold pageSizeToLog2 at h
  split_ifs at h with h1 h2 h3 h4 h5 <;> have hlog := Option.some.inj h
  · exact Or.inl ⟨h1, hlog.symm⟩
  · exact Or.inr (Or.inl ⟨h2, hlog.symm⟩)
  · exact Or.inr (Or.inr (Or.inl ⟨h3, hlog.symm⟩))
  · exact Or.inr (Or.inr (Or.inr (Or.inl ⟨h4, hlog.symm⟩)))
  · exact Or.inr (Or.inr (Or.inr (Or.inr ⟨h5, hlog.symm⟩)))

theorem PageSize.ge (ps : PageSize) : 4096 ≤ ps.bytes := by
  rcases ps.cases_eq with h | h | h | h | h <;> omega

theorem PageSize.le (ps : PageSize) : ps.bytes ≤ 65536 := by
  rcases ps.cases_eq with h | h | h | h | h <;> omega

theorem PageSize.validate (ps : PageSize) : validatePageSizeLog2 ps.log2 = some ps.bytes := by
  rcases ps.cases_eq with ⟨hb, hl⟩ | ⟨hb, hl⟩ | ⟨hb, hl⟩ | ⟨hb, hl⟩ | ⟨hb, hl⟩ <;>
    rw [hb, hl] <;> rfl

/-! ## §2. Keyed primitives -/

/-- What selects a file's cipher, the arguments of `get_or_derive`. -/
structure CipherKey where
  realmId : RealmId
  segmentId : SegmentId
  mkEpoch : Nat
  cipherId : CipherId
  deriving DecidableEq, Repr

/-- The keyed primitives under a master key: the HMAC of `derive_hk` cut to 16
    bytes, and `Cipher::encrypt` and `Cipher::decrypt`.  They are assumed
    correct: lengths as the format has them, and decryption undoes encryption. -/
structure Crypto (MK : Type) where
  mac : MK → Bytes → Bytes
  encrypt : MK → CipherKey → Nonce → Bytes → Bytes → Bytes × Bytes
  decrypt : MK → CipherKey → Nonce → Bytes → Bytes → Bytes → Option Bytes
  mac_length : ∀ mk bytes, (mac mk bytes).length = 16
  body_length : ∀ mk key nonce aad body, (encrypt mk key nonce aad body).1.length = body.length
  tag_length : ∀ mk key nonce aad body, (encrypt mk key nonce aad body).2.length = 16
  decrypt_encrypt : ∀ mk key nonce aad body,
    decrypt mk key nonce aad (encrypt mk key nonce aad body).1 (encrypt mk key nonce aad body).2
      = some body

/-- `Nonce::as_bytes`. -/
def nonceBytes (n : Nonce) : Bytes := n.filePrefix ++ leBytes 6 n.counter

/-- The nonce in a page envelope. -/
def nonceOfBytes (bytes : Bytes) : Nonce where
  filePrefix := bytes.take 6
  counter := ofLeBytes (bytes.drop 6)

/-- The prefix of a segment's nonces. -/
def segmentNonce (segmentId : SegmentId) (counter : Nat) : Nonce where
  filePrefix := (beBytes 16 segmentId).take 6
  counter

theorem segmentNonce_prefix_length (id : SegmentId) (n : Nat) :
    (segmentNonce id n).filePrefix.length = 6 := by
  show ((beBytes 16 id).take 6).length = 6
  rw [length_take, beBytes_length]
  rfl

theorem nonceBytes_length (id : SegmentId) (n : Nat) :
    (nonceBytes (segmentNonce id n)).length = 12 := by
  unfold nonceBytes
  rw [length_append, segmentNonce_prefix_length, leBytes_length]

theorem nonceOfBytes_nonceBytes {id : SegmentId} {n : Nat} (hn : n ≤ Nonce.COUNTER_MAX) :
    nonceOfBytes (nonceBytes (segmentNonce id n)) = segmentNonce id n := by
  have hlen := segmentNonce_prefix_length id n
  have hlt : n < 256 ^ 6 := by
    unfold Nonce.COUNTER_MAX at hn
    omega
  unfold nonceOfBytes nonceBytes
  rw [← hlen, take_left, drop_left]
  show Nonce.mk _ (ofLeBytes (leBytes 6 n)) = _
  rw [ofLeBytes_leBytes_of_lt hlt]
  rfl

/-- `Aad::from_fields`. -/
def aadFromFields (cipherId pageKind : UInt8) (mkEpoch : Nat) (pageId : PageId) (realmId : RealmId)
    (segmentId : SegmentId) : Bytes :=
  cipherId :: pageKind :: (leBytes 8 mkEpoch ++ leBytes 8 pageId ++ beBytes 16 realmId
    ++ beBytes 16 segmentId)

/-- The associated data of a page of the file of `key`. -/
def aad (key : CipherKey) (pageKind : UInt8) (pageId : PageId) : Bytes :=
  aadFromFields key.cipherId.asByte pageKind key.mkEpoch pageId key.realmId key.segmentId

/-! ## §3. Data pages -/

/-- `ENVELOPE_OVERHEAD`: 24 bytes of header and 16 of tag. -/
def ENVELOPE_OVERHEAD : Nat := 40

/-- `body_capacity`. -/
def PageSize.bodyLen (ps : PageSize) : Nat := ps.bytes - ENVELOPE_OVERHEAD

theorem PageSize.bodyLen_add (ps : PageSize) : ps.bodyLen + 40 = ps.bytes := by
  have := ps.ge
  unfold bodyLen ENVELOPE_OVERHEAD
  omega

/-- The envelope of a page: cipher id, kind, flags, epoch, nonce, body, tag. -/
def PAGE_WIDTHS (ps : PageSize) : List Nat := [1, 1, 2, 8, 12, ps.bodyLen, 16]

/-- The pieces of a sealed page. -/
def dataPagePieces {MK : Type} (c : Crypto MK) (mk : MK) (key : CipherKey) (kind : SegmentPageKind)
    (pageId : PageId) (nonce : Nonce) (body : Bytes) : List Bytes :=
  let sealed := c.encrypt mk key nonce (aad key kind.asByte pageId) body
  [[key.cipherId.asByte], [kind.asByte], leBytes 2 0, leBytes 8 key.mkEpoch, nonceBytes nonce,
    sealed.1, sealed.2]

/-- `seal_data_page`, for a body of the full length. -/
def sealDataPage {MK : Type} (c : Crypto MK) (mk : MK) (key : CipherKey) (kind : SegmentPageKind)
    (pageId : PageId) (nonce : Nonce) (body : Bytes) : Bytes :=
  (dataPagePieces c mk key kind pageId nonce body).flatten

/-- `extract_page_header_ids`. -/
def extractPageHeaderIds (ps : PageSize) (page : Bytes) : Except FileError (CipherId × Nat) := do
  require (ENVELOPE_OVERHEAD + 1 ≤ page.length) .payloadTooLarge
  let piece := fun i => (fields (PAGE_WIDTHS ps) page).getD i []
  let cipherId ← CipherId.fromByte ((piece 0).headD 0)
  pure (cipherId, ofLeBytes (piece 3))

/-- `open_data_page` against the associated data of `key`, `kind` and `pageId`:
    the decrypted body. -/
def openDataPage {MK : Type} (c : Crypto MK) (mk : MK) (ps : PageSize) (key : CipherKey)
    (kind : SegmentPageKind) (pageId : PageId) (page : Bytes) : Except FileError Bytes := do
  require (ENVELOPE_OVERHEAD + 1 ≤ page.length) .payloadTooLarge
  let piece := fun i => (fields (PAGE_WIDTHS ps) page).getD i []
  let cipherId ← CipherId.fromByte ((piece 0).headD 0)
  require (isPageKind ((piece 1).headD 0)) .illegalPageKind
  require (key.cipherId = cipherId) .checksumFailure
  -- the kind byte is compared with the associated data before the tag is
  require ((piece 1).headD 0 = kind.asByte) .checksumFailure
  match c.decrypt mk key (nonceOfBytes (piece 4)) (aad key kind.asByte pageId) (piece 5) (piece 6) with
  | some body => pure body
  | none => throw .checksumFailure

section DataPage

variable {MK : Type} {c : Crypto MK} {mk : MK} {ps : PageSize} {key : CipherKey}
  {kind : SegmentPageKind} {pageId counter : Nat} {body : Bytes}

/-- The nonce of page `counter` of the file of `key`. -/
abbrev CipherKey.nonce (key : CipherKey) (counter : Nat) : Nonce := segmentNonce key.segmentId counter

variable (hbody : body.length = ps.bodyLen)

include hbody

theorem dataPagePieces_widths :
    (dataPagePieces c mk key kind pageId (key.nonce counter) body).map List.length
      = PAGE_WIDTHS ps := by
  simp [dataPagePieces, PAGE_WIDTHS, c.body_length, c.tag_length, nonceBytes_length, hbody]

theorem sealDataPage_length :
    (sealDataPage c mk key kind pageId (key.nonce counter) body).length = ps.bytes := by
  unfold sealDataPage
  rw [flatten_length_of_widths (dataPagePieces_widths hbody)]
  have := ps.bodyLen_add
  simp only [PAGE_WIDTHS, sum_cons, sum_nil]
  omega

theorem sealDataPage_fields :
    fields (PAGE_WIDTHS ps) (sealDataPage c mk key kind pageId (key.nonce counter) body)
      = dataPagePieces c mk key kind pageId (key.nonce counter) body := by
  have hw : (dataPagePieces c mk key kind pageId (key.nonce counter) body).map List.length
      = PAGE_WIDTHS ps := dataPagePieces_widths hbody
  have h := fields_of_widths [] hw
  rw [append_nil] at h
  exact h

theorem sealDataPage_long :
    ENVELOPE_OVERHEAD + 1 ≤ (sealDataPage c mk key kind pageId (key.nonce counter) body).length := by
  rw [sealDataPage_length hbody]
  have := ps.ge
  unfold ENVELOPE_OVERHEAD
  omega

theorem extractPageHeaderIds_seal (hepoch : key.mkEpoch < 2 ^ 64) :
    extractPageHeaderIds ps (sealDataPage c mk key kind pageId (key.nonce counter) body)
      = .ok (key.cipherId, key.mkEpoch) := by
  unfold extractPageHeaderIds
  rw [require_bind (sealDataPage_long hbody), sealDataPage_fields hbody]
  show (CipherId.fromByte key.cipherId.asByte >>= fun cipherId =>
    pure (cipherId, ofLeBytes (leBytes 8 key.mkEpoch))) = _
  rw [ok_bind (CipherId.fromByte_asByte _), ofLeBytes_leBytes_of_lt (by omega)]
  rfl

/-- **What was sealed opens**, under the kind it was sealed as and no other. -/
theorem openDataPage_seal (hcounter : counter ≤ Nonce.COUNTER_MAX)
    (expected : SegmentPageKind) :
    openDataPage c mk ps key expected pageId
        (sealDataPage c mk key kind pageId (key.nonce counter) body)
      = if expected = kind then .ok body else .error .checksumFailure := by
  unfold openDataPage
  rw [require_bind (sealDataPage_long hbody), sealDataPage_fields hbody]
  show (CipherId.fromByte key.cipherId.asByte >>= _) = _
  rw [ok_bind (CipherId.fromByte_asByte _)]
  show (require (isPageKind kind.asByte) _ >>= _) = _
  rw [require_bind (SegmentPageKind.isPageKind_asByte kind), require_bind rfl]
  split_ifs with hkind
  · rw [hkind, require_bind (by rfl)]
    simp only [dataPagePieces, getD_cons_succ, getD_cons_zero]
    rw [nonceOfBytes_nonceBytes hcounter, c.decrypt_encrypt]
    rfl
  · have hne : ¬ kind.asByte = expected.asByte := by
      intro h
      exact hkind (SegmentPageKind.asByte_inj h).symm
    show (require (kind.asByte = expected.asByte) _ >>= _) = _
    unfold require
    rw [if_neg hne]
    rfl

end DataPage

/-! ## §4. The header page -/

/-- `MAC_LEN`, and `FOOTER_HEADER_MAC_LEN` and `MANIFEST_TAG_LEN`. -/
def MAC_LEN : Nat := 16

/-- `MAGIC_SEGMENT`: `PAGESEG` and a zero byte. -/
def MAGIC_SEGMENT : Bytes := [0x50, 0x41, 0x47, 0x45, 0x53, 0x45, 0x47, 0x00]

/-- `SEGMENT_FORMAT_VERSION`. -/
def SEGMENT_FORMAT_VERSION : Nat := 1

/-- `SEGMENT_FIELDS_END`, with the reserved bytes. -/
def SEGMENT_FIELDS_END : Nat := 76

/-- `SegmentHeaderFields`. -/
structure SegmentHeaderFields where
  formatVersion : Nat
  cipherId : UInt8
  segmentKind : UInt8
  segmentId : SegmentId
  parentFileId : Nat
  realmId : RealmId
  mkEpoch : Nat
  pageSizeLog2 : UInt8
  flags : UInt8
  deriving DecidableEq, Repr

/-- The widths of the header fields; they end at byte 70. -/
def HEADER_WIDTHS : List Nat := [8, 2, 1, 1, 16, 16, 16, 8, 1, 1]

/-- The header fields in order. -/
def SegmentHeaderFields.pieces (h : SegmentHeaderFields) : List Bytes :=
  [MAGIC_SEGMENT, leBytes 2 h.formatVersion, [h.cipherId], [h.segmentKind], beBytes 16 h.segmentId,
    beBytes 16 h.parentFileId, beBytes 16 h.realmId, leBytes 8 h.mkEpoch, [h.pageSizeLog2], [h.flags]]

/-- The header page before its MAC. -/
def SegmentHeaderFields.page (h : SegmentHeaderFields) (pageSize : Nat) : Bytes :=
  h.pieces.flatten ++ zeros (pageSize - MAC_LEN - 70)

/-- `encode_segment_header`. -/
def encodeSegmentHeader (h : SegmentHeaderFields) (mac : Bytes → Bytes) (pageSize : Nat) :
    Except FileError Bytes := do
  require (validatePageSizeLog2 h.pageSizeLog2 = some pageSize) .unsupported
  require (SEGMENT_FIELDS_END + MAC_LEN ≤ pageSize) .unsupported
  pure (h.page pageSize ++ mac (h.page pageSize))

/-- `decode_segment_header`. -/
def decodeSegmentHeader (bytes : Bytes) (mac : Bytes → Bytes) (pageSize : Nat) :
    Except FileError SegmentHeaderFields := do
  require (bytes.length = pageSize ∧ SEGMENT_FIELDS_END + MAC_LEN ≤ pageSize) .unsupported
  require (bytes.take 8 = MAGIC_SEGMENT) (.structuralHeaderInvalid "segment" "magic")
  require (AllZero (slice bytes 70 (pageSize - MAC_LEN - 70)))
    (.structuralHeaderInvalid "segment" "unused_tail")
  require (mac (bytes.take (pageSize - MAC_LEN)) = bytes.drop (pageSize - MAC_LEN))
    (.structuralHeaderInvalid "segment" "hk_mac")
  let piece := fun i => (fields HEADER_WIDTHS bytes).getD i []
  require (ofLeBytes (piece 1) = SEGMENT_FORMAT_VERSION)
    (.formatVersionUnsupported (ofLeBytes (piece 1)) SEGMENT_FORMAT_VERSION)
  pure {
    formatVersion := ofLeBytes (piece 1)
    cipherId := (piece 2).headD 0
    segmentKind := (piece 3).headD 0
    segmentId := ofBeBytes (piece 4)
    parentFileId := ofBeBytes (piece 5)
    realmId := ofBeBytes (piece 6)
    mkEpoch := ofLeBytes (piece 7)
    pageSizeLog2 := (piece 8).headD 0
    flags := (piece 9).headD 0 }

/-- The fields fit their widths, and the version is the one this build reads. -/
structure SegmentHeaderFields.InRange (h : SegmentHeaderFields) : Prop where
  formatVersion : h.formatVersion = SEGMENT_FORMAT_VERSION
  segmentId : h.segmentId < 256 ^ 16
  parentFileId : h.parentFileId < 256 ^ 16
  realmId : h.realmId < 256 ^ 16
  mkEpoch : h.mkEpoch < 256 ^ 8

section Header

variable {h : SegmentHeaderFields} {mac : Bytes → Bytes}

theorem SegmentHeaderFields.pieces_widths (h : SegmentHeaderFields) :
    h.pieces.map List.length = HEADER_WIDTHS := by
  simp [pieces, HEADER_WIDTHS, MAGIC_SEGMENT]

theorem SegmentHeaderFields.pieces_length (h : SegmentHeaderFields) : h.pieces.flatten.length = 70 :=
  flatten_length_of_widths h.pieces_widths

theorem SegmentHeaderFields.page_length (h : SegmentHeaderFields) (ps : PageSize) :
    (h.page ps.bytes).length = ps.bytes - MAC_LEN := by
  have := ps.ge
  unfold page MAC_LEN
  rw [length_append, h.pieces_length, zeros_length]
  omega

theorem encodeSegmentHeader_eq {ps : PageSize} (hlog : h.pageSizeLog2 = ps.log2) :
    encodeSegmentHeader h mac ps.bytes = .ok (h.page ps.bytes ++ mac (h.page ps.bytes)) := by
  have := ps.ge
  have hfit : SEGMENT_FIELDS_END + MAC_LEN ≤ ps.bytes := by
    unfold SEGMENT_FIELDS_END MAC_LEN
    omega
  unfold encodeSegmentHeader
  rw [require_bind (by rw [hlog]; exact ps.validate), require_bind hfit]
  rfl

/-- **The header page reads back.** -/
theorem decodeSegmentHeader_encode {ps : PageSize} (hr : h.InRange)
    (hmac : ∀ bytes, (mac bytes).length = MAC_LEN) :
    decodeSegmentHeader (h.page ps.bytes ++ mac (h.page ps.bytes)) mac ps.bytes = .ok h := by
  have hge := ps.ge
  have hpl := h.page_length ps
  have hpieces := h.pieces_length
  have hlen : (h.page ps.bytes ++ mac (h.page ps.bytes)).length = ps.bytes := by
    rw [length_append, hpl, hmac]
    unfold MAC_LEN
    omega
  have htake : (h.page ps.bytes ++ mac (h.page ps.bytes)).take (ps.bytes - MAC_LEN)
      = h.page ps.bytes := by
    rw [← hpl, take_left]
  have hdrop : (h.page ps.bytes ++ mac (h.page ps.bytes)).drop (ps.bytes - MAC_LEN)
      = mac (h.page ps.bytes) := by
    rw [← hpl, drop_left]
  have htail : slice (h.page ps.bytes ++ mac (h.page ps.bytes)) 70 (ps.bytes - MAC_LEN - 70)
      = zeros (ps.bytes - MAC_LEN - 70) := by
    unfold SegmentHeaderFields.page
    rw [append_assoc]
    exact slice_mid hpieces (zeros_length _)
  have hmagic : (h.page ps.bytes ++ mac (h.page ps.bytes)).take 8 = MAGIC_SEGMENT := rfl
  have hfields : fields HEADER_WIDTHS (h.page ps.bytes ++ mac (h.page ps.bytes)) = h.pieces := by
    unfold SegmentHeaderFields.page
    rw [append_assoc]
    exact fields_of_widths _ h.pieces_widths
  have hversion : ofLeBytes (leBytes 2 h.formatVersion) = h.formatVersion :=
    ofLeBytes_leBytes_of_lt (by rw [hr.formatVersion]; decide)
  have hfit : SEGMENT_FIELDS_END + MAC_LEN ≤ ps.bytes := by
    unfold SEGMENT_FIELDS_END MAC_LEN
    omega
  unfold decodeSegmentHeader
  rw [require_bind ⟨hlen, hfit⟩, require_bind hmagic,
    require_bind (by rw [htail]; exact allZero_zeros _),
    require_bind (by rw [htake, hdrop]), hfields]
  show (require (ofLeBytes (leBytes 2 h.formatVersion) = SEGMENT_FORMAT_VERSION) _ >>= _) = _
  rw [require_bind (hversion.trans hr.formatVersion)]
  simp only [SegmentHeaderFields.pieces, getD_cons_succ, getD_cons_zero, headD_cons,
    hversion, ofBeBytes_beBytes_of_lt hr.segmentId, ofBeBytes_beBytes_of_lt hr.parentFileId,
    ofBeBytes_beBytes_of_lt hr.realmId, ofLeBytes_leBytes_of_lt hr.mkEpoch]
  rfl

end Header

/-! ## §5. The footer page -/

/-- `MAGIC` of the footer: `PAGESEAL`. -/
def MAGIC_FOOTER : Bytes := [0x50, 0x41, 0x47, 0x45, 0x53, 0x45, 0x41, 0x4c]

/-- `FORMAT_VERSION`. -/
def FORMAT_VERSION : Nat := 1

/-- `FOOTER_FIELDS_END`. -/
def FOOTER_FIELDS_END : Nat := 111

/-- `FOOTER_CLEARTEXT_END`. -/
def FOOTER_CLEARTEXT_END : Nat := FOOTER_FIELDS_END + MAC_LEN

/-- `max_manifest_len`. -/
def maxManifestLen (pageSize : Nat) : Nat := pageSize - FOOTER_CLEARTEXT_END - MAC_LEN

/-- `SegmentFooterFields`. -/
structure SegmentFooterFields where
  formatVersion : Nat
  cipherId : UInt8
  segmentId : SegmentId
  parentFileId : Nat
  realmId : RealmId
  mkEpoch : Nat
  pageCount : Nat
  totalBytes : Nat
  finalCounter : Nat
  indexStartPage : Nat
  indexPageCount : Nat
  deriving DecidableEq, Repr

/-- `footer_aad`. -/
def footerAad (f : SegmentFooterFields) : Bytes :=
  aadFromFields f.cipherId 0x20 f.mkEpoch 0 f.realmId f.segmentId

/-- The widths of the footer's cleartext fields. -/
def FOOTER_WIDTHS : List Nat := [8, 2, 1, 16, 16, 16, 8, 8, 8, 8, 4, 4, 8, 4]

/-- The cleartext fields in order. -/
def SegmentFooterFields.pieces (f : SegmentFooterFields) (manifestLen : Nat) : List Bytes :=
  [MAGIC_FOOTER, leBytes 2 f.formatVersion, [f.cipherId], beBytes 16 f.segmentId,
    beBytes 16 f.parentFileId, beBytes 16 f.realmId, leBytes 8 f.mkEpoch, leBytes 8 f.pageCount,
    leBytes 8 f.totalBytes, leBytes 8 f.finalCounter, leBytes 4 FOOTER_CLEARTEXT_END,
    leBytes 4 manifestLen, leBytes 8 f.indexStartPage, leBytes 4 f.indexPageCount]

/-- The bytes of a footer page around its sealed manifest. -/
def SegmentFooterFields.page {MK : Type} (f : SegmentFooterFields) (c : Crypto MK) (mk : MK)
    (pageSize : Nat) (sealed : Bytes × Bytes) : Bytes :=
  let cleartext := (f.pieces sealed.1.length).flatten
  cleartext ++ (c.mac mk cleartext ++ (sealed.1 ++ (sealed.2
    ++ zeros (pageSize - FOOTER_CLEARTEXT_END - sealed.1.length - MAC_LEN))))

/-- The sealed manifest: the counter is one past the last page's. -/
def sealManifest {MK : Type} (c : Crypto MK) (mk : MK) (key : CipherKey) (f : SegmentFooterFields)
    (manifest : Bytes) : Bytes × Bytes :=
  c.encrypt mk key (segmentNonce f.segmentId (f.finalCounter + 1)) (footerAad f) manifest

/-- `encode_segment_footer`. -/
def encodeSegmentFooter {MK : Type} (c : Crypto MK) (mk : MK) (key : CipherKey)
    (f : SegmentFooterFields) (manifest : Bytes) (pageSize : Nat) : Except FileError Bytes := do
  require (f.formatVersion = FORMAT_VERSION) .unsupported
  require (FOOTER_CLEARTEXT_END + MAC_LEN ≤ pageSize) .unsupported
  require (manifest.length ≤ maxManifestLen pageSize) .manifestTooLarge
  require (key.cipherId.asByte = f.cipherId) .unsupported
  require (manifest.length < 2 ^ 32) .manifestTooLarge
  require (f.finalCounter + 1 ≤ Nonce.COUNTER_MAX) .nonceCounterExhausted
  pure (f.page c mk pageSize (sealManifest c mk key f manifest))

/-- `ParsedFooter`. -/
structure ParsedFooter where
  manifestOffset : Nat
  manifestLen : Nat
  fields : SegmentFooterFields

/-- `parse_cleartext`. -/
def parseCleartext (bytes : Bytes) (pageSize : Nat) : Except FileError ParsedFooter := do
  require (bytes.length = pageSize ∧ FOOTER_CLEARTEXT_END + MAC_LEN ≤ pageSize) .unsupported
  require (bytes.take 8 = MAGIC_FOOTER) (.footerFramingInvalid "magic")
  let piece := fun i => (fields FOOTER_WIDTHS bytes).getD i []
  require (ofLeBytes (piece 1) = FORMAT_VERSION)
    (.formatVersionUnsupported (ofLeBytes (piece 1)) FORMAT_VERSION)
  pure {
    manifestOffset := ofLeBytes (piece 10)
    manifestLen := ofLeBytes (piece 11)
    fields := {
      formatVersion := ofLeBytes (piece 1)
      cipherId := (piece 2).headD 0
      segmentId := ofBeBytes (piece 3)
      parentFileId := ofBeBytes (piece 4)
      realmId := ofBeBytes (piece 5)
      mkEpoch := ofLeBytes (piece 6)
      pageCount := ofLeBytes (piece 7)
      totalBytes := ofLeBytes (piece 8)
      finalCounter := ofLeBytes (piece 9)
      indexStartPage := ofLeBytes (piece 12)
      indexPageCount := ofLeBytes (piece 13) } }

/-- `authenticate_cleartext`. -/
def authenticateCleartext {MK : Type} (c : Crypto MK) (mk : MK) (bytes : Bytes)
    (parsed : ParsedFooter) : Except FileError Unit :=
  require (c.mac mk (bytes.take FOOTER_FIELDS_END) = slice bytes FOOTER_FIELDS_END MAC_LEN
      ∧ parsed.manifestOffset = FOOTER_CLEARTEXT_END
      ∧ parsed.manifestLen ≤ maxManifestLen bytes.length)
    (.footerFramingInvalid "manifest_offset_or_length")

/-- `authenticate_manifest`. -/
def authenticateManifest {MK : Type} (c : Crypto MK) (mk : MK) (key : CipherKey) (bytes : Bytes)
    (f : SegmentFooterFields) (manifestLen : Nat) : Except FileError Bytes := do
  require (f.finalCounter + 1 ≤ Nonce.COUNTER_MAX) .nonceCounterExhausted
  match c.decrypt mk key (segmentNonce f.segmentId (f.finalCounter + 1)) (footerAad f)
      (slice bytes FOOTER_CLEARTEXT_END manifestLen)
      (slice bytes (FOOTER_CLEARTEXT_END + manifestLen) MAC_LEN) with
  | none => throw .manifestUnverifiable
  | some manifest =>
    require (AllZero (bytes.drop (FOOTER_CLEARTEXT_END + manifestLen + MAC_LEN)))
      (.footerFramingInvalid "trailing_bytes")
    pure manifest

/-- `decode_segment_footer`. -/
def decodeSegmentFooter {MK : Type} (c : Crypto MK) (mk : MK) (key : CipherKey) (bytes : Bytes)
    (pageSize : Nat) : Except FileError (SegmentFooterFields × Bytes) := do
  let parsed ← parseCleartext bytes pageSize
  authenticateCleartext c mk bytes parsed
  require (key.cipherId.asByte = parsed.fields.cipherId) .manifestUnverifiable
  require (FOOTER_CLEARTEXT_END + parsed.manifestLen + MAC_LEN ≤ bytes.length)
    (.footerFramingInvalid "manifest_tag_end")
  let manifest ← authenticateManifest c mk key bytes parsed.fields parsed.manifestLen
  pure (parsed.fields, manifest)

/-- `footer_identity_is_unverifiable`. -/
def footerIdentityIsUnverifiable {MK : Type} (c : Crypto MK) (mk : MK) (bytes : Bytes) : Prop :=
  FOOTER_CLEARTEXT_END ≤ bytes.length
    ∧ c.mac mk (bytes.take FOOTER_FIELDS_END) ≠ slice bytes FOOTER_FIELDS_END MAC_LEN

instance {MK : Type} (c : Crypto MK) (mk : MK) (bytes : Bytes) :
    Decidable (footerIdentityIsUnverifiable c mk bytes) :=
  inferInstanceAs (Decidable (_ ∧ _))

/-- The fields fit their widths. -/
structure SegmentFooterFields.InRange (f : SegmentFooterFields) : Prop where
  formatVersion : f.formatVersion = FORMAT_VERSION
  segmentId : f.segmentId < 256 ^ 16
  parentFileId : f.parentFileId < 256 ^ 16
  realmId : f.realmId < 256 ^ 16
  mkEpoch : f.mkEpoch < 256 ^ 8
  pageCount : f.pageCount < 256 ^ 8
  totalBytes : f.totalBytes < 256 ^ 8
  finalCounter : f.finalCounter + 1 ≤ Nonce.COUNTER_MAX
  indexStartPage : f.indexStartPage < 256 ^ 8
  indexPageCount : f.indexPageCount < 256 ^ 4

section Footer

variable {MK : Type} {c : Crypto MK} {mk : MK} {key : CipherKey} {ps : PageSize}
  {f : SegmentFooterFields} {manifest : Bytes}

theorem SegmentFooterFields.pieces_widths (f : SegmentFooterFields) (len : Nat) :
    (f.pieces len).map List.length = FOOTER_WIDTHS := by
  simp [pieces, FOOTER_WIDTHS, MAGIC_FOOTER]

theorem SegmentFooterFields.pieces_length (f : SegmentFooterFields) (len : Nat) :
    (f.pieces len).flatten.length = FOOTER_FIELDS_END :=
  flatten_length_of_widths (f.pieces_widths len)

theorem encodeSegmentFooter_eq_ok {pageSize : Nat} {bytes : Bytes}
    (h : encodeSegmentFooter c mk key f manifest pageSize = .ok bytes) :
    manifest.length ≤ maxManifestLen pageSize ∧ f.finalCounter + 1 ≤ Nonce.COUNTER_MAX
      ∧ bytes = f.page c mk pageSize (sealManifest c mk key f manifest) := by
  unfold encodeSegmentFooter at h
  simp only [require_bind_eq_ok] at h
  obtain ⟨-, -, hlen, -, -, hcounter, hbytes⟩ := h
  exact ⟨hlen, hcounter, (Except.ok.inj hbytes).symm⟩

theorem manifest_fits (h : manifest.length ≤ maxManifestLen ps.bytes) :
    FOOTER_CLEARTEXT_END + manifest.length + MAC_LEN ≤ ps.bytes := by
  have := ps.ge
  unfold maxManifestLen FOOTER_CLEARTEXT_END FOOTER_FIELDS_END MAC_LEN at *
  omega

/-- Where the parts of a footer page lie. -/
theorem footerPage_parts (sealed : Bytes × Bytes) (htag : sealed.2.length = MAC_LEN) :
    let page := f.page c mk ps.bytes sealed
    let cleartext := (f.pieces sealed.1.length).flatten
    page.take FOOTER_FIELDS_END = cleartext
      ∧ slice page FOOTER_FIELDS_END MAC_LEN = c.mac mk cleartext
      ∧ slice page FOOTER_CLEARTEXT_END sealed.1.length = sealed.1
      ∧ slice page (FOOTER_CLEARTEXT_END + sealed.1.length) MAC_LEN = sealed.2
      ∧ AllZero (page.drop (FOOTER_CLEARTEXT_END + sealed.1.length + MAC_LEN)) := by
  intro page cleartext
  have hclear : cleartext.length = FOOTER_FIELDS_END := f.pieces_length _
  have hmac : (c.mac mk cleartext).length = MAC_LEN := c.mac_length mk _
  have hcut : (cleartext ++ c.mac mk cleartext).length = FOOTER_CLEARTEXT_END := by
    rw [length_append, hclear, hmac]
    rfl
  have hcut' : (cleartext ++ c.mac mk cleartext ++ sealed.1).length
      = FOOTER_CLEARTEXT_END + sealed.1.length := by
    rw [length_append, hcut]
  have hcut'' : (cleartext ++ c.mac mk cleartext ++ sealed.1 ++ sealed.2).length
      = FOOTER_CLEARTEXT_END + sealed.1.length + MAC_LEN := by
    rw [length_append, hcut', htag]
  generalize hz : zeros (ps.bytes - FOOTER_CLEARTEXT_END - sealed.1.length - MAC_LEN) = z
  have hpage : page = cleartext ++ (c.mac mk cleartext ++ (sealed.1 ++ (sealed.2 ++ z))) := by
    rw [← hz]
    rfl
  refine ⟨?_, ?_, ?_, ?_, ?_⟩
  · rw [hpage, ← hclear, take_left]
  · rw [hpage]
    exact slice_mid hclear hmac
  · rw [hpage, ← append_assoc]
    exact slice_mid hcut rfl
  · rw [hpage, ← append_assoc, ← append_assoc]
    exact slice_mid hcut' htag
  · rw [hpage, ← append_assoc, ← append_assoc, ← append_assoc, ← hcut'', drop_left, ← hz]
    exact allZero_zeros _

theorem sealManifest_lengths (c : Crypto MK) (mk : MK) (key : CipherKey) (f : SegmentFooterFields)
    (manifest : Bytes) : (sealManifest c mk key f manifest).1.length = manifest.length
      ∧ (sealManifest c mk key f manifest).2.length = MAC_LEN :=
  ⟨c.body_length _ _ _ _ _, c.tag_length _ _ _ _ _⟩

theorem footerPage_length (h : manifest.length ≤ maxManifestLen ps.bytes) :
    (f.page c mk ps.bytes (sealManifest c mk key f manifest)).length = ps.bytes := by
  have hfit := manifest_fits h
  obtain ⟨hbody, htag⟩ := sealManifest_lengths c mk key f manifest
  unfold SegmentFooterFields.page
  simp only [length_append, f.pieces_length, c.mac_length, hbody, htag, zeros_length]
  unfold FOOTER_CLEARTEXT_END MAC_LEN at *
  omega

/-- The cleartext of a footer page parses to its fields. -/
theorem parseCleartext_page (hr : f.InRange) (h : manifest.length ≤ maxManifestLen ps.bytes) :
    parseCleartext (f.page c mk ps.bytes (sealManifest c mk key f manifest)) ps.bytes
      = .ok ⟨FOOTER_CLEARTEXT_END, manifest.length, f⟩ := by
  have hfit := manifest_fits h
  have hle := ps.le
  obtain ⟨hbody, -⟩ := sealManifest_lengths c mk key f manifest
  have hfields : fields FOOTER_WIDTHS (f.page c mk ps.bytes (sealManifest c mk key f manifest))
      = f.pieces manifest.length := by
    unfold SegmentFooterFields.page
    rw [hbody]
    exact fields_of_widths _ (f.pieces_widths _)
  have hversion : ofLeBytes (leBytes 2 f.formatVersion) = f.formatVersion :=
    ofLeBytes_leBytes_of_lt (by rw [hr.formatVersion]; decide)
  have hcounter : f.finalCounter < 256 ^ 8 := by
    have := hr.finalCounter
    unfold Nonce.COUNTER_MAX at this
    omega
  unfold parseCleartext
  rw [require_bind ⟨footerPage_length h, by omega⟩, require_bind (by rfl), hfields]
  show (require (ofLeBytes (leBytes 2 f.formatVersion) = FORMAT_VERSION) _ >>= _) = _
  rw [require_bind (hversion.trans hr.formatVersion)]
  simp only [SegmentFooterFields.pieces, getD_cons_succ, getD_cons_zero, headD_cons,
    hversion, ofBeBytes_beBytes_of_lt hr.segmentId, ofBeBytes_beBytes_of_lt hr.parentFileId,
    ofBeBytes_beBytes_of_lt hr.realmId, ofLeBytes_leBytes_of_lt hr.mkEpoch,
    ofLeBytes_leBytes_of_lt hr.pageCount, ofLeBytes_leBytes_of_lt hr.totalBytes,
    ofLeBytes_leBytes_of_lt hcounter, ofLeBytes_leBytes_of_lt hr.indexStartPage,
    ofLeBytes_leBytes_of_lt hr.indexPageCount,
    ofLeBytes_leBytes_of_lt (show FOOTER_CLEARTEXT_END < 256 ^ 4 by decide),
    ofLeBytes_leBytes_of_lt (show manifest.length < 256 ^ 4 by omega)]
  rfl

/-- **The footer page reads back**, with its manifest. -/
theorem decodeSegmentFooter_encode (hr : f.InRange) (hcipher : key.cipherId.asByte = f.cipherId)
    (h : manifest.length ≤ maxManifestLen ps.bytes) :
    decodeSegmentFooter c mk key (f.page c mk ps.bytes (sealManifest c mk key f manifest)) ps.bytes
      = .ok (f, manifest) := by
  have hlen : (f.page c mk ps.bytes (sealManifest c mk key f manifest)).length = ps.bytes :=
    footerPage_length h
  obtain ⟨hbody, htag⟩ := sealManifest_lengths c mk key f manifest
  obtain ⟨htake, hmac, hct, htagAt, hzero⟩ :=
    footerPage_parts (sealManifest c mk key f manifest) htag (c := c) (f := f)
  rw [hbody] at htake hmac hct htagAt hzero
  unfold decodeSegmentFooter
  rw [ok_bind (parseCleartext_page hr h)]
  unfold authenticateCleartext
  rw [require_bind ⟨by rw [htake, hmac], rfl, by rw [hlen]; exact h⟩,
    require_bind hcipher, require_bind (by rw [hlen]; exact manifest_fits h)]
  have hopen : authenticateManifest c mk key
      (f.page c mk ps.bytes (sealManifest c mk key f manifest)) f manifest.length = .ok manifest := by
    have hdec : c.decrypt mk key (segmentNonce f.segmentId (f.finalCounter + 1)) (footerAad f)
        (sealManifest c mk key f manifest).1 (sealManifest c mk key f manifest).2 = some manifest :=
      c.decrypt_encrypt _ _ _ _ _
    unfold authenticateManifest
    rw [require_bind hr.finalCounter, hct, htagAt, hdec]
    exact require_bind hzero
  rw [ok_bind hopen]
  rfl

theorem footer_verifies :
    ¬ footerIdentityIsUnverifiable c mk (f.page c mk ps.bytes (sealManifest c mk key f manifest)) := by
  obtain ⟨-, htag⟩ := sealManifest_lengths c mk key f manifest
  obtain ⟨htake, hmac, -⟩ :=
    footerPage_parts (sealManifest c mk key f manifest) htag (c := c) (f := f)
  intro hbad
  exact hbad.2 (by rw [htake, hmac])

end Footer

end Pagedb.Segment
