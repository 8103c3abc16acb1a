/-
  Pagedb.Segment.RoundTrip — a sealed segment reads back.

  The authenticator derives page count, byte count, counter and index place by
  formulas of its own; here they meet the writer's fields.

  Main results:
    * `SealedAs.authenticate` — the file of a seal is accepted with its meta;
    * `segment_round_trip`  — what was appended is read back;
    * `sealed_segment_readable` — also when calls failed in between, as long as
      none of them failed in its write.
-/
import Pagedb.Segment.Written

namespace Pagedb.Segment

open Lib List

variable {MK : Type}

/-! ## §1. Blocks of the file -/

/-- The footer page of a sealed file. -/
def SegmentWriter.footerPage (w : SegmentWriter) (p : SegmentPager MK) (mk : MK) (index : Nat × Nat) :
    Bytes :=
  (w.footer p.pageSize index).page p.crypto mk p.pageSize.bytes
    (sealManifest p.crypto mk w.key (w.footer p.pageSize index) w.manifest)

/-- All pages of a sealed file. -/
def sealedBlocks (p : SegmentPager MK) (mk : MK) (w : SegmentWriter) (all : Bodies)
    (index : Nat × Nat) : List Bytes :=
  filePages p mk w all ++ [w.footerPage p mk index]

theorem readExactAt_block {n i : Nat} {blocks : List Bytes} {b : Bytes}
    (h : ∀ b ∈ blocks, b.length = n) (hi : blocks[i]? = some b) :
    readExactAt blocks.flatten (i * n) n = .ok b := by
  have hlt : i < blocks.length := (List.getElem?_eq_some_iff.mp hi).1
  have hroom : i * n + n ≤ blocks.flatten.length := by
    rw [flatten_length_of_blocks h]
    have hmul : (i + 1) * n ≤ blocks.length * n := Nat.mul_le_mul_right n hlt
    rw [Nat.succ_mul] at hmul
    exact hmul
  unfold readExactAt
  rw [require_bind hroom, slice_block h hi]
  rfl

section Sealed

variable {p : SegmentPager MK} {mk : MK} {w : SegmentWriter} {all bodies : Bodies}
  {index : Nat × Nat} {m : SegmentMeta} {file : Bytes}

theorem sealedBlocks_count : (sealedBlocks p mk w all index).length = all.length + 2 := by
  unfold sealedBlocks
  rw [length_append, filePages_count]
  rfl

/-- The reader `finishOpen` makes of a sealed file. -/
def sealedReader (p : SegmentPager MK) (mk : MK) (w : SegmentWriter) (index : Nat × Nat)
    (m : SegmentMeta) (file : Bytes) : FileReader MK :=
  ⟨p, m, file, mk, w.footer p.pageSize index, w.manifest⟩

theorem tryKinds_sealed {r : FileReader MK} {key : CipherKey} {pageId : PageId} {page body : Bytes}
    {kind : SegmentPageKind}
    (hopen : ∀ expected, openDataPage r.pager.crypto r.masterKey r.pager.pageSize key expected pageId
      page = if expected = kind then .ok body else .error .checksumFailure) :
    tryKinds r key pageId page TRY_KINDS .checksumFailure = .ok (kind, body) := by
  unfold TRY_KINDS
  cases kind <;> simp [tryKinds, hopen]

variable (h : SealedAs p mk w all index m file)

include h

theorem SealedAs.file_blocks : file = (sealedBlocks p mk w all index).flatten := by
  unfold sealedBlocks
  rw [h.file_eq, h.wrote.file, flatten_append]
  show _ = _ ++ (w.footerPage p mk index ++ [])
  rw [append_nil]
  rfl

theorem SealedAs.blocks_length :
    ∀ b ∈ sealedBlocks p mk w all index, b.length = p.pageSize.bytes := by
  intro b hb
  rcases mem_concat.mp hb with hb | rfl
  · exact filePages_length h.wrote.full b hb
  · exact footerPage_length h.manifest_le

theorem SealedAs.read_header : readExactAt file 0 p.pageSize.bytes = .ok (w.headerPage p mk) := by
  have hread := readExactAt_block h.blocks_length (i := 0) (b := w.headerPage p mk) rfl
  rw [Nat.zero_mul] at hread
  rw [h.file_blocks]
  exact hread

theorem SealedAs.read_footer :
    readExactAt file ((all.length + 1) * p.pageSize.bytes) p.pageSize.bytes
      = .ok (w.footerPage p mk index) := by
  rw [h.file_blocks]
  refine readExactAt_block h.blocks_length ?_
  unfold sealedBlocks
  rw [getElem?_append_right (by rw [filePages_count]), filePages_count, Nat.sub_self]
  rfl

variable {i : Nat} {b : SegmentPageKind × Bytes}

theorem SealedAs.read_body (hi : all[i]? = some b) :
    readExactAt file ((i + 1) * p.pageSize.bytes) p.pageSize.bytes
      = .ok (sealedPage p mk w.key i b) := by
  have hlt : i < all.length := (List.getElem?_eq_some_iff.mp hi).1
  rw [h.file_blocks]
  refine readExactAt_block h.blocks_length ?_
  unfold sealedBlocks filePages
  rw [getElem?_append_left (by simpa using hlt)]
  show (all.mapIdx (sealedPage p mk w.key))[i]? = _
  rw [getElem?_mapIdx, hi]
  rfl

/-! ## §2. Header and footer -/

theorem SealedAs.meta_key : m.key w.key.cipherId = w.key := by
  rw [h.meta_eq]
  rfl

theorem SealedAs.pageCount : m.pageCount = all.length + 2 := by
  rw [h.meta_eq]
  show w.nextPageId + 1 = _
  rw [h.wrote.next]

theorem SealedAs.totalBytes : m.totalBytes = (all.length + 2) * p.pageSize.bytes := by
  have hroom := h.room
  rw [h.meta_eq]
  show (w.totalBytes + p.pageSize.bytes) % 2 ^ 64 = _
  rw [h.wrote.total, Nat.mod_eq_of_lt (Nat.lt_of_le_of_lt hroom (by decide)), h.wrote.next]
  ring

theorem SealedAs.geometry : validateGeometry m p.pageSize.bytes file.length = .ok () := by
  have hlen : file.length = (all.length + 2) * p.pageSize.bytes := by
    rw [h.file_blocks, flatten_length_of_blocks h.blocks_length, sealedBlocks_count]
  have hroom : (all.length + 2) * p.pageSize.bytes ≤ U64_MAX := by
    have hr := h.room
    rw [h.wrote.next] at hr
    calc (all.length + 2) * p.pageSize.bytes
        = (all.length + 1) * p.pageSize.bytes + p.pageSize.bytes := by ring
      _ ≤ U64_MAX := hr
  have hlast : (all.length + 2 - 1) * p.pageSize.bytes + p.pageSize.bytes
      = (all.length + 2) * p.pageSize.bytes := by
    show (all.length + 1) * p.pageSize.bytes + p.pageSize.bytes = _
    ring
  unfold validateGeometry
  rw [hlen, h.pageCount, h.totalBytes, require_bind hroom, require_bind (Nat.le_add_left 2 _),
    require_bind rfl, require_bind (Nat.mul_mod_left _ _), require_bind rfl,
    require_bind (by omega), hlast, require_bind hroom]
  unfold require
  rw [if_pos (Nat.le_refl _)]

theorem SealedAs.header_decodes :
    decodeSegmentHeader (w.headerPage p mk) (p.crypto.mac mk) p.pageSize.bytes
      = .ok (w.header p.pageSize) := by
  refine decodeSegmentHeader_encode ⟨rfl, h.wrote.segmentId, ?_, h.wrote.realmId, h.wrote.mkEpoch⟩
    (p.crypto.mac_length mk)
  show w.parentFileId < 256 ^ 16
  rw [h.wrote.parentFileId]
  exact p.fileId_lt

theorem SealedAs.header_validates :
    validateHeader (w.header p.pageSize) m p.fileId p.pageSize = .ok () := by
  have hparent := h.wrote.parentFileId
  rw [h.meta_eq]
  unfold validateHeader
  simp only [SegmentWriter.header, SegmentWriter.sealedMeta, CipherId.fromByte_asByte,
    SegmentKind.fromByte_asByte, Except.isOk, Except.toBool, hparent, require, if_true]
  rfl

/-- The fields of a sealed footer fit their widths. -/
theorem SealedAs.footer_inRange (hi : index.1 ≤ w.nextPageId) (hc : index.2 < 2 ^ 32) :
    (w.footer p.pageSize index).InRange := by
  have hge := p.pageSize.ge
  have hlast := h.last
  have hroom := h.room
  have hsmall : Nonce.COUNTER_MAX + 1 < 256 ^ 8 := by decide
  refine ⟨rfl, h.wrote.segmentId, ?_, h.wrote.realmId, h.wrote.mkEpoch, ?_, ?_, ?_, ?_, ?_⟩
  · show w.parentFileId < 256 ^ 16
    rw [h.wrote.parentFileId]
    exact p.fileId_lt
  · show w.nextPageId + 1 < 256 ^ 8
    exact Nat.lt_of_le_of_lt (Nat.add_le_add_right hlast 1) hsmall
  · show (w.totalBytes + p.pageSize.bytes) % 2 ^ 64 < 256 ^ 8
    exact Nat.mod_lt _ (by decide)
  · show w.nonceNext - 1 + 1 ≤ Nonce.COUNTER_MAX
    rw [h.counter, h.wrote.next] at *
    exact hlast
  · show index.1 < 256 ^ 8
    exact Nat.lt_of_le_of_lt (hi.trans hlast) (by decide)
  · show index.2 < 256 ^ 4
    exact Nat.lt_of_lt_of_le hc (by decide)

theorem SealedAs.footer_decodes (hi : index.1 ≤ w.nextPageId) (hc : index.2 < 2 ^ 32) :
    decodeSegmentFooter p.crypto mk w.key (w.footerPage p mk index) p.pageSize.bytes
      = .ok (w.footer p.pageSize index, w.manifest) :=
  decodeSegmentFooter_encode (h.footer_inRange hi hc) rfl h.manifest_le

theorem SealedAs.footer_validates (hindex : validateFooterIndex (w.footer p.pageSize index) (all.length + 1) = .ok ()) :
    validateFooter (w.footer p.pageSize index) m p.fileId (all.length + 1) = .ok () := by
  have hparent := h.wrote.parentFileId
  have hfinal : w.nonceNext - 1 = all.length + 1 - 1 := by
    rw [h.counter, h.wrote.next]
  rw [h.meta_eq]
  unfold validateFooter
  simp only [SegmentWriter.footer, SegmentWriter.sealedMeta, CipherId.fromByte_asByte, Except.isOk,
    Except.toBool, hparent, hfinal, Nat.le_add_left, require, if_true]
  exact hindex

/-! ## §3. Pages -/

/-- **A page of a sealed file opens to its body**, whoever asks. -/
theorem SealedAs.openPage (hi : all[i]? = some b) (expected : SegmentPageKind) :
    openDataPage p.crypto mk p.pageSize w.key expected (i + 1) (sealedPage p mk w.key i b)
      = if expected = b.1 then .ok b.2 else .error .checksumFailure := by
  have hlt : i < all.length := (List.getElem?_eq_some_iff.mp hi).1
  refine openDataPage_seal (h.wrote.full b (mem_of_getElem? hi)) ?_ expected
  exact Nat.le_trans hlt h.wrote.few

theorem SealedAs.page_ids (hi : all[i]? = some b) :
    extractPageHeaderIds p.pageSize (sealedPage p mk w.key i b)
      = .ok (w.key.cipherId, w.key.mkEpoch) :=
  extractPageHeaderIds_seal (h.wrote.full b (mem_of_getElem? hi)) h.wrote.mkEpoch

theorem SealedAs.offset_le (hi : i ≤ all.length) : (i + 1) * p.pageSize.bytes ≤ U64_MAX := by
  have hfits := h.wrote.fits
  rw [h.wrote.next] at hfits
  exact (Nat.mul_le_mul_right _ (Nat.succ_le_succ hi)).trans hfits

/-- **Every page reads back.** -/
theorem SealedAs.readPage (hi : all[i]? = some b) :
    (sealedReader p mk w index m file).readPage (i + 1) = .ok b.2 := by
  have hlt : i < all.length := (List.getElem?_eq_some_iff.mp hi).1
  have hin : ¬ (i + 1 = 0 ∨ m.pageCount - 1 ≤ i + 1) := by
    rw [h.pageCount]
    omega
  have hcipher : m.cipherId = w.key.cipherId.asByte := by rw [h.meta_eq]; rfl
  have hepoch : m.mkEpoch = w.key.mkEpoch := by rw [h.meta_eq]; rfl
  have hpage : (sealedReader p mk w index m file).readAuthenticatedPage (i + 1) = .ok b := by
    unfold FileReader.readAuthenticatedPage sealedReader
    rw [require_bind hin, require_bind (h.offset_le hlt.le),
      ok_bind (h.read_body hi), ok_bind (h.page_ids hi)]
    show (require (w.key.cipherId.asByte = m.cipherId) _ >>= _) = _
    rw [require_bind hcipher.symm, require_bind hepoch.symm]
    show tryKinds _ (m.key w.key.cipherId) (i + 1) (sealedPage p mk w.key i b) TRY_KINDS _ = _
    rw [h.meta_key]
    exact tryKinds_sealed (h.openPage hi)
  unfold FileReader.readPage
  rw [ok_bind hpage]
  rfl

end Sealed

/-! ## §4. The extent index -/

/-- An entry the index scan accepts behind `previousEnd`. -/
structure ExtentIndexEntry.Fits (e : ExtentIndexEntry) (indexStart : PageId) : Prop where
  start : 1 ≤ e.startPageId
  count_pos : 1 ≤ e.pageCount
  count_lt : e.pageCount < 256 ^ 4
  logical : e.logicalBytes < 256 ^ 8
  inside : e.startPageId + e.pageCount ≤ indexStart

/-- Where the scan stands after some entries. -/
def scanEnd (previousEnd : Nat) (es : List ExtentIndexEntry) : Nat :=
  es.foldl (fun _ e => e.startPageId + e.pageCount) previousEnd

section Index

variable {indexStart : PageId} {e : ExtentIndexEntry} {es : List ExtentIndexEntry} {s : IndexScan}

theorem ExtentIndexEntry.decode_encode (h : e.Fits indexStart) (hi : indexStart < 256 ^ 8) :
    ExtentIndexEntry.decode e.encode = e := by
  have hin := h.inside
  have hstart : e.startPageId < 256 ^ 8 := by
    unfold PageId at *
    omega
  have hfields : fields ENTRY_WIDTHS e.encode = e.pieces := by
    have hcut := fields_of_widths [] e.pieces_widths
    rw [append_nil] at hcut
    exact hcut
  unfold ExtentIndexEntry.decode
  rw [hfields]
  simp only [ExtentIndexEntry.pieces, getD_cons_succ, getD_cons_zero,
    ofLeBytes_leBytes_of_lt hstart, ofLeBytes_leBytes_of_lt h.count_lt,
    ofLeBytes_leBytes_of_lt h.logical]

theorem ExtentIndexEntry.encode_ne_zero (h : e.Fits indexStart) (hi : indexStart < 256 ^ 8) :
    ¬ AllZero e.encode := by
  intro hzero
  have hdecode := e.decode_encode h hi
  have hall : e.encode = zeros EXTENT_INDEX_ENTRY_LEN := by
    rw [← e.encode_length]
    exact eq_replicate_of_mem hzero
  have hstart : (ExtentIndexEntry.decode e.encode).startPageId = 0 := by
    rw [hall]
    decide
  have hpos := h.start
  rw [hdecode] at hstart
  rw [hstart] at hpos
  exact absurd hpos (by decide)

theorem ExtentIndexEntry.encode_reserved (e : ExtentIndexEntry) :
    AllZero (slice e.encode 12 4) ∧ AllZero (slice e.encode 24 8) := by
  have hencode : e.encode = leBytes 8 e.startPageId ++ (leBytes 4 e.pageCount
      ++ (zeros 4 ++ (leBytes 8 e.logicalBytes ++ (zeros 8 ++ [])))) := rfl
  constructor
  · rw [hencode, ← append_assoc, slice_mid (by simp) (zeros_length 4)]
    exact allZero_zeros 4
  · rw [hencode, ← append_assoc, ← append_assoc, ← append_assoc,
      slice_mid (by simp) (zeros_length 8)]
    exact allZero_zeros 8

/-- One entry of the index. -/
theorem validateIndexEntry_encode (h : e.Fits indexStart) (hi : indexStart < 256 ^ 8)
    (htail : s.unusedTail = false) (hprev : s.previousEnd = 0 ∨ s.previousEnd ≤ e.startPageId) :
    validateIndexEntry indexStart s e.encode
      = .ok ⟨e.startPageId + e.pageCount, false, s.entries ++ [e]⟩ := by
  have hend : e.startPageId + e.pageCount ≤ U64_MAX :=
    h.inside.trans (Nat.le_of_lt_succ hi)
  have hne : e.startPageId ≠ 0 ∧ e.pageCount ≠ 0 :=
    ⟨Nat.pos_iff_ne_zero.mp h.start, Nat.pos_iff_ne_zero.mp h.count_pos⟩
  unfold validateIndexEntry
  rw [if_neg (e.encode_ne_zero h hi), require_bind htail, require_bind e.encode_reserved,
    e.decode_encode h hi]
  dsimp only
  rw [require_bind hne, require_bind hend, require_bind h.inside, require_bind hprev, htail]
  rfl

/-- The zero chunks behind the last entry. -/
theorem validateIndexEntry_zeros (indexStart : PageId) (s : IndexScan) (n : Nat) :
    (List.replicate n (zeros EXTENT_INDEX_ENTRY_LEN)).foldlM (validateIndexEntry indexStart) s
      = .ok { s with unusedTail := s.unusedTail || decide (0 < n) } := by
  induction n generalizing s with
  | zero => simp [pure, Except.pure]
  | succ n ih =>
    have hzero : validateIndexEntry indexStart s (zeros EXTENT_INDEX_ENTRY_LEN)
        = .ok { s with unusedTail := true } := by
      unfold validateIndexEntry
      rw [if_pos (allZero_zeros _)]
    rw [replicate_succ, foldlM_cons, ok_bind hzero, ih]
    simp

/-- A run of entries in order. -/
theorem validateIndexEntry_run (hi : indexStart < 256 ^ 8) (hfit : ∀ e ∈ es, e.Fits indexStart)
    (hord : es.Pairwise fun a b => a.startPageId + a.pageCount ≤ b.startPageId)
    (htail : s.unusedTail = false)
    (hprev : s.previousEnd = 0 ∨ ∀ e ∈ es, s.previousEnd ≤ e.startPageId) :
    (es.map ExtentIndexEntry.encode).foldlM (validateIndexEntry indexStart) s
      = .ok ⟨scanEnd s.previousEnd es, false, s.entries ++ es⟩ := by
  induction es generalizing s with
  | nil =>
    simp only [map_nil, foldlM_nil, scanEnd, foldl_nil, append_nil, ← htail]
    rfl
  | cons e es ih =>
    obtain ⟨hhead, hrest⟩ := pairwise_cons.mp hord
    have hone := validateIndexEntry_encode (hfit e mem_cons_self) hi htail
      (hprev.imp id fun hall => hall e mem_cons_self)
    rw [map_cons, foldlM_cons, ok_bind hone,
      ih (fun e' he' => hfit e' (mem_cons_of_mem e he')) hrest rfl (Or.inr hhead)]
    simp only [append_assoc, cons_append, nil_append]
    rfl

theorem entriesPerPage_pos (ps : PageSize) : 0 < ps.entriesPerPage := by
  have := ps.ge
  have := ps.bodyLen_add
  unfold PageSize.entriesPerPage EXTENT_INDEX_ENTRY_LEN
  omega

theorem indexBody_chunks (ps : PageSize) (extents : List ExtentIndexEntry) (i : Nat) :
    let chunk := (extents.drop (i * ps.entriesPerPage)).take ps.entriesPerPage
    indexBody ps extents i = (chunk.map ExtentIndexEntry.encode
          ++ List.replicate (ps.entriesPerPage - chunk.length) (zeros EXTENT_INDEX_ENTRY_LEN)).flatten
        ++ zeros (ps.bodyLen - ps.entriesPerPage * EXTENT_INDEX_ENTRY_LEN) := by
  intro chunk
  have hdiv : ps.entriesPerPage * EXTENT_INDEX_ENTRY_LEN ≤ ps.bodyLen := Nat.div_mul_le_self _ _
  have hchunk : chunk.length ≤ ps.entriesPerPage := length_take_le _ _
  have hmul : chunk.length * EXTENT_INDEX_ENTRY_LEN ≤ ps.entriesPerPage * EXTENT_INDEX_ENTRY_LEN :=
    Nat.mul_le_mul_right _ hchunk
  have hsub : (ps.entriesPerPage - chunk.length) * EXTENT_INDEX_ENTRY_LEN
      = ps.entriesPerPage * EXTENT_INDEX_ENTRY_LEN - chunk.length * EXTENT_INDEX_ENTRY_LEN :=
    Nat.sub_mul _ _ _
  unfold indexBody PageSize.pad
  rw [flatten_append, append_assoc]
  congr 1
  show zeros (ps.bodyLen - (chunk.map ExtentIndexEntry.encode).flatten.length) = _
  rw [encodeEntries_length]
  unfold zeros
  rw [flatten_replicate_replicate, replicate_append_replicate, hsub]
  congr 1
  omega

/-- One index page. -/
theorem validateIndexEntries_page (ps : PageSize) (extents : List ExtentIndexEntry) (i : Nat)
    (hi : indexStart < 256 ^ 8) (hfit : ∀ e ∈ extents, e.Fits indexStart)
    (hord : extents.Pairwise fun a b => a.startPageId + a.pageCount ≤ b.startPageId)
    (htail : s.unusedTail = false)
    (hprev : s.previousEnd = 0 ∨
      ∀ e ∈ extents.drop (i * ps.entriesPerPage), s.previousEnd ≤ e.startPageId) :
    let chunk := (extents.drop (i * ps.entriesPerPage)).take ps.entriesPerPage
    validateIndexEntries indexStart s (indexBody ps extents i)
      = .ok ⟨scanEnd s.previousEnd chunk, decide (chunk.length < ps.entriesPerPage),
          s.entries ++ chunk⟩ := by
  intro chunk
  have hsub : chunk ⊆ extents.drop (i * ps.entriesPerPage) := take_subset _ _
  have hrun := validateIndexEntry_run (s := s) hi (fun e he => hfit e (drop_subset _ _ (hsub he)))
    ((hord.drop).take) htail (hprev.imp id fun hall e he => hall e (hsub he))
  have hcount : (indexBody ps extents i).length / EXTENT_INDEX_ENTRY_LEN = ps.entriesPerPage := by
    rw [indexBody_length]
    rfl
  have hchunk : chunk.length ≤ ps.entriesPerPage := length_take_le _ _
  -- the chunks of the page: its entries, then zeros
  have hwidths : (chunk.map ExtentIndexEntry.encode
      ++ List.replicate (ps.entriesPerPage - chunk.length) (zeros EXTENT_INDEX_ENTRY_LEN)).map
        List.length = List.replicate ps.entriesPerPage EXTENT_INDEX_ENTRY_LEN := by
    have hentries : (chunk.map ExtentIndexEntry.encode).map List.length
        = List.replicate chunk.length EXTENT_INDEX_ENTRY_LEN := by
      rw [map_map]
      exact eq_replicate_iff.mpr ⟨length_map _, by
        intro n hn
        obtain ⟨e, -, rfl⟩ := mem_map.mp hn
        exact e.encode_length⟩
    rw [map_append, hentries, map_replicate, zeros_length, replicate_append_replicate]
    congr 1
    omega
  have hfields := fields_of_widths
    (zeros (ps.bodyLen - ps.entriesPerPage * EXTENT_INDEX_ENTRY_LEN)) hwidths
  have hlen := flatten_length_of_widths hwidths
  rw [sum_replicate_nat] at hlen
  have hrest : (indexBody ps extents i).drop (ps.entriesPerPage * EXTENT_INDEX_ENTRY_LEN)
      = zeros (ps.bodyLen - ps.entriesPerPage * EXTENT_INDEX_ENTRY_LEN) := by
    rw [indexBody_chunks, ← hlen, drop_left]
  unfold validateIndexEntries
  rw [hcount, require_bind (by rw [hrest]; exact allZero_zeros _), indexBody_chunks, hfields,
    foldlM_append, ok_bind hrun, validateIndexEntry_zeros]
  simp only [Bool.false_or, Nat.sub_pos_iff_lt]

theorem scanEnd_append (n : Nat) (xs ys : List ExtentIndexEntry) :
    scanEnd n (xs ++ ys) = scanEnd (scanEnd n xs) ys := by
  unfold scanEnd
  rw [foldl_append]

theorem scanEnd_le {xs ys : List ExtentIndexEntry}
    (hord : (xs ++ ys).Pairwise fun a b => a.startPageId + a.pageCount ≤ b.startPageId) :
    scanEnd 0 xs = 0 ∨ ∀ e ∈ ys, scanEnd 0 xs ≤ e.startPageId := by
  rcases eq_nil_or_concat xs with rfl | ⟨xs, x, rfl⟩
  · exact Or.inl rfl
  · refine Or.inr fun e he => ?_
    rw [concat_eq_append] at hord ⊢
    have hx := (pairwise_append.mp hord).2.2 x (by simp) e he
    rw [scanEnd_append]
    exact hx

end Index

section Decode

variable {p : SegmentPager MK} {mk : MK} {w : SegmentWriter} {all bodies : Bodies}
  {index : Nat × Nat} {m : SegmentMeta} {file : Bytes}

/-- The entries of the index, as the scan wants them. -/
structure IndexOk (ps : PageSize) (extents : List ExtentIndexEntry) (indexStart : PageId) : Prop where
  fits : ∀ e ∈ extents, e.Fits indexStart
  ordered : extents.Pairwise fun a b => a.startPageId + a.pageCount ≤ b.startPageId

variable {extents : List ExtentIndexEntry} {i : Nat} {e : ExtentIndexEntry}
  {x : ExtentRef × List Bytes}

theorem IndexAt.body {b : SegmentPageKind × Bytes}
    (hat : IndexAt p.pageSize extents bodies all index) (hi : bodies[i]? = some b) :
    all[i]? = some b := by
  rcases hat with ⟨-, rfl, -⟩ | ⟨-, -, rfl, -⟩
  · exact hi
  · rw [getElem?_append_left (List.getElem?_eq_some_iff.mp hi).1]
    exact hi

/-- The pages of an extent. -/
theorem ExtentKept.body {payload : Bytes} (h : ExtentKept p.pageSize bodies e x)
    (hi : x.2[i]? = some payload) :
    bodies[e.startPageId - 1 + i]? = some (.data, p.pageSize.pad payload) := by
  have hlt : i < e.pageCount := by
    rw [h.count]
    exact (List.getElem?_eq_some_iff.mp hi).1
  have hbody : ((bodies.drop (e.startPageId - 1)).take e.pageCount)[i]?
      = some (.data, p.pageSize.pad payload) := by
    rw [h.pages]
    unfold extentBodies
    rw [getElem?_map, hi]
    rfl
  rw [getElem?_take_of_lt hlt, getElem?_drop] at hbody
  exact hbody

theorem indexPages_ne_zero (hne : extents ≠ []) (ps : PageSize) : ps.indexPages extents ≠ 0 := by
  have hlen : 0 < extents.length := length_pos_iff.mpr hne
  have hpos := entriesPerPage_pos ps
  unfold PageSize.indexPages
  exact Nat.pos_iff_ne_zero.mp (Nat.div_pos (by omega) hpos)

theorem length_indexBodies (ps : PageSize) (n : Nat) : (indexBodies ps extents 0 n).length = n := by
  unfold indexBodies
  rw [length_map, length_range']

variable (h : SealedAs p mk w all index m file)

include h

variable (hall : all = bodies ++ indexBodies p.pageSize extents 0 (p.pageSize.indexPages extents))

include hall

theorem SealedAs.indexPage {j : Nat}
    (hj : j < p.pageSize.indexPages extents) :
    collectAndDecodeIndexPage p file m mk w.key.cipherId (bodies.length + 1 + j)
      = .ok (indexBody p.pageSize extents j) := by
  have hat : all[bodies.length + j]? = some (.index, indexBody p.pageSize extents j) := by
    rw [hall, getElem?_append_right (Nat.le_add_right _ _), Nat.add_sub_cancel_left]
    unfold indexBodies
    rw [getElem?_map, getElem?_range' (by omega)]
    simp
  have hlt : bodies.length + j < all.length := (List.getElem?_eq_some_iff.mp hat).1
  have hid : bodies.length + 1 + j = bodies.length + j + 1 := by omega
  have hepoch : m.mkEpoch = w.key.mkEpoch := by rw [h.meta_eq]; rfl
  unfold collectAndDecodeIndexPage
  rw [hid, require_bind (h.offset_le hlt.le), ok_bind (h.read_body hat), ok_bind (h.page_ids hat)]
  show (require (w.key.cipherId = w.key.cipherId) _ >>= _) = _
  rw [require_bind rfl, require_bind hepoch.symm, h.meta_key, h.openPage hat, if_pos rfl]

/-- The index loop after `n` pages. -/
theorem SealedAs.indexLoop {n : Nat} (hok : IndexOk p.pageSize extents (bodies.length + 1))
    (hindex : index.1 = bodies.length + 1) (hn : n ≤ p.pageSize.indexPages extents) :
    (List.range n).foldlM
        (decodeIndexPage p file m mk (w.footer p.pageSize index) w.key.cipherId) ⟨0, false, []⟩
      = .ok ⟨scanEnd 0 (extents.take (n * p.pageSize.entriesPerPage)),
          decide (extents.length < n * p.pageSize.entriesPerPage),
          extents.take (n * p.pageSize.entriesPerPage)⟩ := by
  have hpos := entriesPerPage_pos p.pageSize
  induction n with
  | zero => simp [scanEnd, pure, Except.pure]
  | succ n ih =>
    have hfew : n * p.pageSize.entriesPerPage < extents.length := by
      have hmul := (Nat.le_div_iff_mul_le hpos).mp hn
      rw [Nat.succ_mul] at hmul
      omega
    have hid : bodies.length + 1 + n ≤ U64_MAX := by
      have hle : bodies.length + n ≤ all.length := by
        rw [hall, length_append, length_indexBodies]
        omega
      have := h.wrote.few
      unfold Nonce.COUNTER_MAX at this
      unfold U64_MAX
      omega
    have hsmall : bodies.length + 1 < 256 ^ 8 := by
      unfold U64_MAX at hid
      omega
    have hord := hok.ordered
    rw [← take_append_drop (n * p.pageSize.entriesPerPage) extents] at hord
    have hpage := validateIndexEntries_page p.pageSize extents n
      (s := ⟨scanEnd 0 (extents.take (n * p.pageSize.entriesPerPage)), false,
        extents.take (n * p.pageSize.entriesPerPage)⟩) hsmall hok.fits hok.ordered rfl (scanEnd_le hord)
    rw [range_succ, foldlM_append, ok_bind (ih (Nat.le_of_succ_le hn)),
      decide_eq_false (by omega), foldlM_cons]
    have hstart : (w.footer p.pageSize index).indexStartPage = bodies.length + 1 := hindex
    unfold decodeIndexPage
    rw [hstart, require_bind hid, ok_bind (h.indexPage hall hn), ok_bind hpage, ← scanEnd_append,
      ← take_add, ← Nat.succ_mul]
    have hfull : ((extents.drop (n * p.pageSize.entriesPerPage)).take
        p.pageSize.entriesPerPage).length < p.pageSize.entriesPerPage
          ↔ extents.length < (n + 1) * p.pageSize.entriesPerPage := by
      rw [length_take, length_drop, Nat.succ_mul]
      omega
    simp only [foldlM_nil, hfull]
    rfl

theorem SealedAs.index_end :
    bodies.length + 1 + p.pageSize.indexPages extents = w.nextPageId ∧ w.nextPageId ≤ U64_MAX := by
  refine ⟨?_, h.last.trans (by decide)⟩
  rw [h.wrote.next, hall, length_append, length_indexBodies]
  omega

omit hall

variable (hat : IndexAt p.pageSize extents bodies all index)

include hat

/-- **The index decodes to the writer's extents.** -/
theorem SealedAs.decodeIndex (hok : IndexOk p.pageSize extents (bodies.length + 1)) :
    decodeExtentIndex p file m mk (w.footer p.pageSize index) w.key.cipherId = .ok extents := by
  have hpos := entriesPerPage_pos p.pageSize
  unfold decodeExtentIndex
  rcases hat with ⟨rfl, -, rfl⟩ | ⟨hne, hmany, hall, rfl⟩
  · exact if_pos rfl
  · have hpages := indexPages_ne_zero hne p.pageSize
    -- the last page reaches past the last entry
    have hcover : extents.length ≤ p.pageSize.indexPages extents * p.pageSize.entriesPerPage := by
      have hdiv := Nat.lt_div_mul_add (a := extents.length + p.pageSize.entriesPerPage - 1) hpos
      unfold PageSize.indexPages
      omega
    obtain ⟨hend, hlast⟩ := h.index_end hall
    rw [if_neg (show ¬ (w.footer p.pageSize (bodies.length + 1,
      p.pageSize.indexPages extents)).indexPageCount = 0 from hpages)]
    show (require (bodies.length + 1 + p.pageSize.indexPages extents ≤ U64_MAX) _ >>= fun _ =>
      require (bodies.length + 1 ≠ 0 ∧ bodies.length + 1 + p.pageSize.indexPages extents
        = w.nextPageId + 1 - 1) _ >>= _) = _
    rw [hend, require_bind hlast, require_bind ⟨Nat.succ_ne_zero _, rfl⟩,
      require_bind (Nat.pos_iff_ne_zero.mp hpos)]
    show ((List.range (p.pageSize.indexPages extents)).foldlM _ _ >>= _) = _
    rw [ok_bind (h.indexLoop hall hok rfl (Nat.le_refl _)), take_of_length_le hcover]
    rw [require_bind hne]
    rfl

theorem SealedAs.index_validates :
    validateFooterIndex (w.footer p.pageSize index) (all.length + 1) = .ok ()
      ∧ index.1 ≤ w.nextPageId ∧ index.2 < 2 ^ 32 := by
  have hpos := entriesPerPage_pos p.pageSize
  unfold validateFooterIndex
  rcases hat with ⟨rfl, -, rfl⟩ | ⟨hne, hmany, hall, rfl⟩
  · refine ⟨?_, Nat.zero_le _, by decide⟩
    rw [if_pos (show (w.footer p.pageSize (0, 0)).indexPageCount = 0 from rfl)]
    rfl
  · have hpages := indexPages_ne_zero hne p.pageSize
    obtain ⟨hend, hlast⟩ := h.index_end hall
    rw [h.wrote.next] at hend hlast
    refine ⟨?_, ?_, hmany⟩
    · rw [if_neg (show ¬ (w.footer p.pageSize (bodies.length + 1,
      p.pageSize.indexPages extents)).indexPageCount = 0 from hpages)]
      show (require (bodies.length + 1 + p.pageSize.indexPages extents ≤ U64_MAX) _ >>= fun _ =>
        require (bodies.length + 1 ≠ 0 ∧ bodies.length + 1 + p.pageSize.indexPages extents
          = all.length + 1) _) = _
      rw [hend, require_bind hlast]
      exact if_pos ⟨Nat.succ_ne_zero _, rfl⟩
    · show bodies.length + 1 ≤ w.nextPageId
      rw [h.wrote.next]
      omega

/-! ## §5. The whole file -/

/-- **The file of a seal is accepted with its meta.** -/
theorem SealedAs.authenticate (hok : IndexOk p.pageSize extents (bodies.length + 1)) :
    authenticateSegmentMetadata p file m p.fileId
      = .ok ⟨w.footer p.pageSize index, w.manifest, mk⟩ := by
  obtain ⟨hindex, hi, hc⟩ := h.index_validates hat
  have hcipher : CipherId.fromByte m.cipherId = .ok w.key.cipherId := by
    rw [h.meta_eq]
    exact CipherId.fromByte_asByte _
  have hmaster : p.mkFor m.mkEpoch w.key.cipherId = some mk := by
    rw [h.meta_eq]
    exact h.wrote.master
  have hlast : m.pageCount - 1 = all.length + 1 := by
    rw [h.pageCount]
    rfl
  have hverify : ¬ footerIdentityIsUnverifiable p.crypto mk (w.footerPage p mk index) :=
    footer_verifies
  unfold authenticateSegmentMetadata
  rw [ok_bind hcipher, ok_bind h.geometry]
  dsimp only
  rw [hmaster, hlast]
  dsimp only
  rw [ok_bind h.read_header, ok_bind h.header_decodes,
    ok_bind h.header_validates, ok_bind h.read_footer,
    require_bind hverify, h.meta_key,
    ok_bind (h.footer_decodes hi hc)]
  dsimp only
  rw [ok_bind (h.footer_validates hindex), ok_bind (h.decodeIndex hat hok)]
  rfl

theorem SealedAs.finishOpen (hok : IndexOk p.pageSize extents (bodies.length + 1)) :
    Segment.finishOpen p m file = .ok (sealedReader p mk w index m file) := by
  unfold Segment.finishOpen
  rw [ok_bind (h.authenticate hat hok)]
  rfl

/-- **An extent reads back.** -/
theorem SealedAs.readExtentPage {payload : Bytes} (hx : ExtentKept p.pageSize bodies e x)
    (hi : x.2[i]? = some payload) :
    (sealedReader p mk w index m file).readPage (e.startPageId + i) = .ok (p.pageSize.pad payload) := by
  have hread := h.readPage (hat.body (hx.body hi))
  have hid : e.startPageId - 1 + i + 1 = e.startPageId + i := by
    have := hx.start
    unfold PageId at *
    omega
  rw [hid] at hread
  exact hread

theorem SealedAs.readExtent (hx : ExtentKept p.pageSize bodies e x) :
    (sealedReader p mk w index m file).readExtent ⟨e.startPageId, e.pageCount⟩
      = .ok (x.2.map p.pageSize.pad) := by
  have hstep : ∀ i ∈ List.range e.pageCount,
      (require (e.startPageId + i ≤ U64_MAX) (FileError.arithmeticOverflow "segment extent page id")
          >>= fun _ => (sealedReader p mk w index m file).readPage (e.startPageId + i))
        = .ok (p.pageSize.pad (x.2.getD i [])) := by
    intro i hi
    have hlt : i < x.2.length := hx.count ▸ mem_range.mp hi
    have hat' : x.2[i]? = some (x.2.getD i []) := by
      rw [getD_eq_getElem?_getD, getElem?_eq_getElem hlt]
      rfl
    have hid : e.startPageId + i ≤ U64_MAX := by
      have hin := hx.inside
      have hfew : bodies.length ≤ all.length := by
        rcases hat with ⟨-, rfl, -⟩ | ⟨-, -, rfl, -⟩
        · exact Nat.le_refl _
        · rw [length_append]
          exact Nat.le_add_right _ _
      have hmax := h.wrote.few
      have hc := hx.count
      unfold Nonce.COUNTER_MAX at hmax
      unfold U64_MAX PageId at *
      omega
    rw [require_bind hid]
    exact h.readExtentPage hat hx hat'
  unfold FileReader.readExtent
  rw [mapM_eq_ok hstep, hx.count]
  congr 1
  refine ext_getElem (by simp) fun i h₁ h₂ => ?_
  have hlt : i < x.2.length := by simpa using h₂
  simp [getD_eq_getElem?_getD, getElem?_eq_getElem hlt]

end Decode

/-! ## §6. Runs of a writer -/

/-- The file is accepted with the meta, opens as `reader`, and reads back what
    the receipts name. -/
structure ReadsBack (p : SegmentPager MK) (m : SegmentMeta) (file : Bytes) (r : Receipts)
    (reader : FileReader MK) : Prop where
  accepted : authenticateSegmentMetadata p file m p.fileId
    = .ok ⟨reader.footer, reader.manifest, reader.masterKey⟩
  opens : finishOpen p m file = .ok reader
  pages : ∀ x ∈ r.pages, reader.readPage x.1 = .ok (p.pageSize.pad x.2)
  extentPages : ∀ x ∈ r.extents, ∀ i payload, x.2[i]? = some payload →
    reader.readPage (x.1.startPageId + i) = .ok (p.pageSize.pad payload)
  extents : ∀ x ∈ r.extents, reader.findExtent x.1.startPageId = .ok (x.2.map p.pageSize.pad)
  notFound : ∀ id, reader.findExtent id = .error .notFound ↔ ∀ x ∈ r.extents, x.1.startPageId ≠ id
  manifest : reader.manifest = r.manifest

section Runs

variable {p : SegmentPager MK} {mk : MK} {w w' : SegmentWriter} {r : Receipts} {all bodies : Bodies}
  {index : Nat × Nat} {m : SegmentMeta} {file : Bytes}

theorem Receipted.indexOk (h : Receipted p.pageSize w r bodies) :
    IndexOk p.pageSize w.extents (bodies.length + 1) := by
  refine ⟨fun e he => ?_, h.ordered⟩
  obtain ⟨x, -, hx⟩ := h.of_entry he
  exact ⟨hx.start, hx.count_pos, hx.count_lt, Nat.lt_of_le_of_lt hx.logical (by decide), hx.inside⟩

/-- `findExtent` by the receipts. -/
theorem findExtent_sealed (h : SealedAs p mk w all index m file)
    (hr : Receipted p.pageSize w r bodies) (hat : IndexAt p.pageSize w.extents bodies all index)
    (id : PageId) :
    (∀ x ∈ r.extents, x.1.startPageId = id →
        (sealedReader p mk w index m file).findExtent id = .ok (x.2.map p.pageSize.pad))
      ∧ ((∀ x ∈ r.extents, x.1.startPageId ≠ id) →
        (sealedReader p mk w index m file).findExtent id = .error .notFound) := by
  by_cases hnil : w.extents = []
  · have hindex : (w.footer p.pageSize index).indexPageCount = 0 := by
      rcases hat with ⟨-, -, rfl⟩ | ⟨hne, -⟩
      · rfl
      · exact absurd hnil hne
    constructor
    · intro x hx
      obtain ⟨e, he, -⟩ := hr.of_receipt hx
      rw [hnil] at he
      cases he
    · intro _
      unfold FileReader.findExtent
      exact if_pos hindex
  · have hindex : ¬ (w.footer p.pageSize index).indexPageCount = 0 := by
      rcases hat with ⟨heq, -⟩ | ⟨-, -, -, rfl⟩
      · exact absurd heq hnil
      · exact indexPages_ne_zero hnil p.pageSize
    have hcipher : CipherId.fromByte m.cipherId = .ok w.key.cipherId := by
      rw [h.meta_eq]
      exact CipherId.fromByte_asByte _
    have hsearch : ∀ {id} e, binarySearchByKey ExtentIndexEntry.startPageId w.extents id = some e
        ↔ e ∈ w.extents ∧ e.startPageId = id := fun e =>
      binarySearchByKey_eq_some (hr.ordered.imp_of_mem fun ha _ hab =>
        Nat.lt_of_lt_of_le (Nat.lt_add_of_pos_right (hr.indexOk.fits _ ha).count_pos) hab)
    have hrun : (sealedReader p mk w index m file).findExtent id
        = (binarySearchByKey ExtentIndexEntry.startPageId w.extents id).elim (.error .notFound)
          fun entry =>
            (sealedReader p mk w index m file).readExtent ⟨entry.startPageId, entry.pageCount⟩ := by
      unfold FileReader.findExtent
      show (if (w.footer p.pageSize index).indexPageCount = 0 then _ else _) = _
      rw [if_neg hindex]
      show (CipherId.fromByte m.cipherId >>= fun cipherId =>
        decodeExtentIndex p file m mk (w.footer p.pageSize index) cipherId >>= _) = _
      rw [ok_bind hcipher, ok_bind (h.decodeIndex hat hr.indexOk)]
      cases binarySearchByKey ExtentIndexEntry.startPageId w.extents id <;> rfl
    constructor
    · rintro x hx rfl
      obtain ⟨e, he, hkept⟩ := hr.of_receipt hx
      have hstart : e.startPageId = x.1.startPageId := by rw [hkept.ref]
      rw [hrun, (hsearch e).mpr ⟨he, hstart⟩]
      exact h.readExtent hat hkept
    · intro hnone
      have hmiss : binarySearchByKey ExtentIndexEntry.startPageId w.extents id = none := by
        refine Option.eq_none_iff_forall_ne_some.mpr fun e heq => ?_
        obtain ⟨he, rfl⟩ := (hsearch e).mp heq
        obtain ⟨x, hx, hkept⟩ := hr.of_entry he
        exact hnone x hx (by rw [hkept.ref])
      rw [hrun, hmiss, Option.elim_none]

/-- What a sealed file reads back, from the writer's invariant. -/
theorem readsBack_of_sealed {io : SealOutcome} {life : WriterLife} (hinv : LifeInv p mk life)
    (hseal : sealSegment p io life.writer = .ok m w') :
    ∃ reader, ReadsBack p m w'.file life.receipts reader := by
  obtain ⟨bodies, hw, hr⟩ := hinv
  obtain ⟨w₁, all, index, hsame, hat, hs⟩ := sealSegment_eq_ok hw hr.layout hseal
  have hr₁ : Receipted p.pageSize w₁ life.receipts bodies := by
    have := hr.grow [] hsame
    rw [append_nil] at this
    exact this
  have hat₁ : IndexAt p.pageSize w₁.extents bodies all index := by
    rw [hsame]
    exact hat
  have hok := hr₁.indexOk
  refine ⟨sealedReader p mk w₁ index m w'.file, hs.authenticate hat₁ hok,
    hs.finishOpen hat₁ hok, ?_, ?_, ?_, ?_, hr₁.manifest⟩
  · intro x hx
    obtain ⟨hpos, kind, hbody⟩ := hr₁.pages x hx
    have hread := hs.readPage (hat₁.body hbody)
    rw [Nat.sub_add_cancel hpos] at hread
    exact hread
  · intro x hx i payload hi
    obtain ⟨e, -, hkept⟩ := hr₁.of_receipt hx
    rw [hkept.ref]
    exact hs.readExtentPage hat₁ hkept hi
  · intro x hx
    exact (findExtent_sealed hs hr₁ hat₁ _).1 x hx rfl
  · intro id
    constructor
    · intro hnot x hx heq
      rw [(findExtent_sealed hs hr₁ hat₁ id).1 x hx heq] at hnot
      cases hnot
    · exact (findExtent_sealed hs hr₁ hat₁ id).2

variable (p) (realmId segmentId : Id16) (kind : SegmentKind) (io : WriteOutcome) (w₀ : SegmentWriter)
  (hcreate : createSegment p realmId segmentId kind io = .ok w₀) (calls : List WriterCall)
  (sealIo : SealOutcome) (m) (w)
  (hseal : sealSegment p sealIo (run (WriterLife.step p) (WriterLife.start w₀) calls).writer
    = .ok m w)

include hcreate hseal

/-- **Segment round trip.**  Calls that all return `Ok`, and a seal that does:
    the file is accepted, and pages, extents and manifest read back. -/
theorem segment_round_trip
    (hcalls : Meets (WriterLife.step p) (fun life call => call.ReturnsOk p life.writer)
      (WriterLife.start w₀) calls) :
    ∃ reader, ReadsBack p m w.file
      (run (WriterLife.step p) (WriterLife.start w₀) calls).receipts reader := by
  obtain ⟨mk, hstart⟩ := lifeInv_start hcreate
  have hinv : LifeInv p mk (run (WriterLife.step p) (WriterLife.start w₀) calls) :=
    run_invariant_of_meets (fun _ _ hs hok => hs.step (Or.inr hok)) calls _ hstart hcalls
  exact readsBack_of_sealed hinv hseal

/-- **A sealed segment is readable** if no append failed in its write, whatever
    else its calls returned. -/
theorem sealed_segment_readable (hland : ∀ call ∈ calls, call.WritesLand) :
    ∃ reader, ReadsBack p m w.file
      (run (WriterLife.step p) (WriterLife.start w₀) calls).receipts reader := by
  obtain ⟨mk, hstart⟩ := lifeInv_start hcreate
  have hinv : LifeInv p mk (run (WriterLife.step p) (WriterLife.start w₀) calls) := by
    clear hseal
    generalize WriterLife.start w₀ = life at hstart
    induction calls generalizing life with
    | nil => exact hstart
    | cons call calls ih =>
      exact ih (fun c hc => hland c (mem_cons_of_mem call hc)) _
        (hstart.step (Or.inl (hland call mem_cons_self)))
  exact readsBack_of_sealed hinv hseal

end Runs

/-! ## §7. Runs with and without a failed write -/

/-- Primitives that leave the bytes clear. -/
def plainCrypto : Crypto Unit where
  mac := fun _ _ => zeros 16
  encrypt := fun _ _ _ _ body => (body, zeros 16)
  decrypt := fun _ _ _ _ body _ => some body
  mac_length := fun _ _ => rfl
  body_length := fun _ _ _ _ _ => rfl
  tag_length := fun _ _ _ _ _ => rfl
  decrypt_encrypt := fun _ _ _ _ _ => rfl

/-- A pager with 4096-byte pages over them. -/
def plainPager : SegmentPager Unit where
  pageSize := ⟨4096, 12, rfl⟩
  crypto := plainCrypto
  cipherId := .plaintextMac
  mkEpoch := 0
  mkEpoch_lt := by decide
  fileId := 7
  fileId_lt := by decide
  mkFor := fun _ _ => some ()

/-- A seal whose writes land. -/
def cleanSeal : SealOutcome := ⟨fun _ => .completes, .completes, true⟩

/-- A writer of segment 5 in realm 3 over the plain pager. -/
def plainWriter : SegmentWriter :=
  let w := SegmentWriter.fresh plainPager 3 5 .unspecified
  { w with file := w.headerPage plainPager () }

theorem createSegment_plain :
    createSegment plainPager 3 5 .unspecified .completes = .ok plainWriter :=
  createSegment_completes rfl

/-- A writer's life over the plain pager. -/
def plainLife (calls : List WriterCall) : WriterLife :=
  run (WriterLife.step plainPager) (WriterLife.start plainWriter) calls

/-- A page, an extent of two pages and a manifest. -/
def plainCalls : List WriterCall :=
  [.appendPage .overflow [1] .completes, .appendExtent [([2], .completes), ([3], .completes)],
    .setManifest [4]]

theorem segment_round_trip_plain :
    ∃ m w reader, sealSegment plainPager cleanSeal (plainLife plainCalls).writer = .ok m w
      ∧ ReadsBack plainPager m w.file ⟨[(1, [1])], [(⟨2, 2⟩, [[2], [3]])], [4]⟩ reader := by
  have hok : isOk (sealSegment plainPager cleanSeal (plainLife plainCalls).writer) = true := by
    decide +kernel
  obtain ⟨m, w, hseal⟩ := exists_ok_of_isOk hok
  have hreceipts : (plainLife plainCalls).receipts = ⟨[(1, [1])], [(⟨2, 2⟩, [[2], [3]])], [4]⟩ := by
    decide +kernel
  have hmeets : Meets (WriterLife.step plainPager)
      (fun life call => call.ReturnsOk plainPager life.writer) (WriterLife.start plainWriter)
      plainCalls := by
    refine ⟨?_, ?_, ?_, trivial⟩
    · show isOk (appendPage plainPager .overflow [1] .completes _) = true
      decide +kernel
    · show isOk (appendExtent plainPager [([2], .completes), ([3], .completes)] _) = true
      decide +kernel
    · show isOk (setManifest plainPager [4] _) = true
      decide +kernel
  obtain ⟨reader, hread⟩ := segment_round_trip plainPager w m 3 5 .unspecified .completes
    plainWriter createSegment_plain plainCalls cleanSeal hseal hmeets
  have hr : ReadsBack plainPager m w.file (plainLife plainCalls).receipts reader := hread
  rw [hreceipts] at hr
  exact ⟨m, w, reader, hseal, hr⟩

/-- A call that is refused, and the same pages again. -/
def refusedCalls : List WriterCall :=
  [.appendExtent [([1], .completes), (zeros 5000, .completes)],
    .appendExtent [([1], .completes), ([2], .completes)]]

/-- A refused extent leaves its first page behind; the retry is read back. -/
theorem sealed_segment_readable_refused :
    ∃ m w reader, sealSegment plainPager cleanSeal (plainLife refusedCalls).writer = .ok m w
      ∧ ReadsBack plainPager m w.file ⟨[], [(⟨2, 2⟩, [[1], [2]])], []⟩ reader := by
  have hok : isOk (sealSegment plainPager cleanSeal (plainLife refusedCalls).writer) = true := by
    decide +kernel
  obtain ⟨m, w, hseal⟩ := exists_ok_of_isOk hok
  have hreceipts : (plainLife refusedCalls).receipts = ⟨[], [(⟨2, 2⟩, [[1], [2]])], []⟩ := by
    decide +kernel
  have hland : ∀ call ∈ refusedCalls, call.WritesLand := by
    simp only [refusedCalls, WriterCall.WritesLand]
    grind
  obtain ⟨reader, hread⟩ := sealed_segment_readable plainPager w m 3 5 .unspecified .completes
    plainWriter createSegment_plain refusedCalls cleanSeal hseal hland
  have hr : ReadsBack plainPager m w.file (plainLife refusedCalls).receipts reader := hread
  rw [hreceipts] at hr
  exact ⟨m, w, reader, hseal, hr⟩

/-- **One nonce per page.**  An accepted file has exactly one counter for each
    page between its header and its footer. -/
theorem authenticate_counter {p : SegmentPager MK} {file : Bytes} {m : SegmentMeta} {parent : Nat}
    {a : AuthenticatedSegmentMetadata MK}
    (h : authenticateSegmentMetadata p file m parent = .ok a) :
    m.finalCounter = m.pageCount - 1 - 1 := by
  unfold authenticateSegmentMetadata at h
  obtain ⟨cipherId, -, h⟩ := except_bind_eq_ok.mp h
  obtain ⟨_, -, h⟩ := except_bind_eq_ok.mp h
  dsimp only at h
  cases hmk : p.mkFor m.mkEpoch cipherId with
  | none => rw [hmk] at h; cases h
  | some mk =>
    rw [hmk] at h
    dsimp only at h
    obtain ⟨headerBytes, -, h⟩ := except_bind_eq_ok.mp h
    obtain ⟨header, -, h⟩ := except_bind_eq_ok.mp h
    obtain ⟨_, -, h⟩ := except_bind_eq_ok.mp h
    obtain ⟨footerBytes, -, h⟩ := except_bind_eq_ok.mp h
    obtain ⟨-, h⟩ := require_bind_eq_ok.mp h
    obtain ⟨⟨f, manifest⟩, -, h⟩ := except_bind_eq_ok.mp h
    obtain ⟨u, hfooter, -⟩ := except_bind_eq_ok.mp h
    unfold validateFooter at hfooter
    simp only [require_bind_eq_ok] at hfooter
    obtain ⟨-, -, -, -, -, -, -, -, -, -, hcounter, -, hgeometry, -⟩ := hfooter
    rw [← hcounter]
    exact hgeometry

/-- A page whose write fails once and is retried: the seal succeeds, and the
    file is not accepted. -/
theorem failed_write_seals_unreadable :
    ∃ m w, sealSegment plainPager cleanSeal
        (plainLife [.appendPage .data [1] (.fails 0), .appendPage .data [1] .completes]).writer
          = .ok m w
      ∧ ∀ a, authenticateSegmentMetadata plainPager w.file m plainPager.fileId ≠ .ok a := by
  have hd : (match sealSegment plainPager cleanSeal
      (plainLife [.appendPage .data [1] (.fails 0), .appendPage .data [1] .completes]).writer with
    | .ok m _ => decide (m.finalCounter = 2 ∧ m.pageCount = 3)
    | .error _ _ => false) = true := by decide +kernel
  cases hseal : sealSegment plainPager cleanSeal
      (plainLife [.appendPage .data [1] (.fails 0), .appendPage .data [1] .completes]).writer with
  | error e w => rw [hseal] at hd; cases hd
  | ok m w =>
    rw [hseal] at hd
    obtain ⟨hfinal, hcount⟩ := of_decide_eq_true hd
    refine ⟨m, w, rfl, fun a ha => ?_⟩
    have hgeometry := authenticate_counter ha
    rw [hfinal, hcount] at hgeometry
    cases hgeometry

end Pagedb.Segment
