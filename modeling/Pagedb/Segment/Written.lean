/-
  Pagedb.Segment.Written — what the file of a segment writer holds.

  As long as no write of an append fails, the file is the header page and the
  sealed pages in order, the page cursor and the nonce counter move together,
  and the byte count is the file's length.  A call that fails otherwise leaves
  this true.

  Main results:
    * `writePage_eq_ok`, `writePage_eq_error` — one page;
    * `LifeInv.step` — one call of a writer's life;
    * `sealSegment_eq_ok` — the file of a sealed segment.
-/
import Pagedb.Segment.Reader

namespace Pagedb.Segment

open Lib List

variable {MK : Type}

/-! ## §1. The pages of a file -/

/-- The pages appended so far: their kinds and zero-padded bodies. -/
abbrev Bodies := List (SegmentPageKind × Bytes)

/-- The sealed page of the body with index `i`; page 0 is the header, and a
    page's counter is its id. -/
def sealedPage (p : SegmentPager MK) (mk : MK) (key : CipherKey) (i : Nat)
    (b : SegmentPageKind × Bytes) : Bytes :=
  sealDataPage p.crypto mk key b.1 (i + 1) (key.nonce (i + 1)) b.2

/-- The header page of a writer's file. -/
def SegmentWriter.headerPage (w : SegmentWriter) (p : SegmentPager MK) (mk : MK) : Bytes :=
  let h := w.header p.pageSize
  h.page p.pageSize.bytes ++ p.crypto.mac mk (h.page p.pageSize.bytes)

/-- The pages of a writer's file. -/
def filePages (p : SegmentPager MK) (mk : MK) (w : SegmentWriter) (bodies : Bodies) : List Bytes :=
  w.headerPage p mk :: bodies.mapIdx (sealedPage p mk w.key)

/-- The state of a writer none of whose appends failed in its write. -/
structure Wrote (p : SegmentPager MK) (mk : MK) (w : SegmentWriter) (bodies : Bodies) : Prop where
  master : p.mkFor w.key.mkEpoch w.key.cipherId = some mk
  segmentId : w.key.segmentId < 256 ^ 16
  realmId : w.key.realmId < 256 ^ 16
  mkEpoch : w.key.mkEpoch < 256 ^ 8
  parentFileId : w.parentFileId = p.fileId
  file : w.file = (filePages p mk w bodies).flatten
  full : ∀ b ∈ bodies, b.2.length = p.pageSize.bodyLen
  next : w.nextPageId = bodies.length + 1
  few : bodies.length ≤ Nonce.COUNTER_MAX
  fits : w.nextPageId * p.pageSize.bytes ≤ U64_MAX
  total : w.totalBytes = w.nextPageId * p.pageSize.bytes
  counter : w.nonceNext = w.nextPageId ∨ Nonce.COUNTER_MAX < w.nonceNext

/-- The calls of this section touch the file, the cursor and the two counts only. -/
def SameRest (w w' : SegmentWriter) : Prop :=
  w' = { w with
    file := w'.file, nonceNext := w'.nonceNext, nextPageId := w'.nextPageId
    totalBytes := w'.totalBytes }

theorem SameRest.trans {w w' w'' : SegmentWriter} (h : SameRest w w') (h' : SameRest w' w'') :
    SameRest w w'' := by
  unfold SameRest at *
  rw [h'] at *
  rw [h] at *

section Pages

variable {p : SegmentPager MK} {mk : MK} {w w' : SegmentWriter} {bodies : Bodies}

theorem headerPage_length (p : SegmentPager MK) (mk : MK) (w : SegmentWriter) :
    (w.headerPage p mk).length = p.pageSize.bytes := by
  have := p.pageSize.ge
  unfold SegmentWriter.headerPage
  rw [length_append, SegmentHeaderFields.page_length, p.crypto.mac_length]
  unfold MAC_LEN
  omega

theorem filePages_length (hb : ∀ b ∈ bodies, b.2.length = p.pageSize.bodyLen) :
    ∀ page ∈ filePages p mk w bodies, page.length = p.pageSize.bytes := by
  intro page hpage
  rcases mem_cons.mp hpage with rfl | hpage
  · exact headerPage_length p mk w
  · obtain ⟨i, hi, rfl⟩ := mem_mapIdx.mp hpage
    exact sealDataPage_length (hb _ (getElem_mem hi))

theorem filePages_count : (filePages p mk w bodies).length = bodies.length + 1 := by
  simp [filePages]

theorem Wrote.file_length (h : Wrote p mk w bodies) :
    w.file.length = w.nextPageId * p.pageSize.bytes := by
  rw [h.file, flatten_length_of_blocks (filePages_length h.full), filePages_count, h.next]

theorem filePages_append (b : SegmentPageKind × Bytes) : (filePages p mk w (bodies ++ [b])).flatten
      = (filePages p mk w bodies).flatten ++ sealedPage p mk w.key bodies.length b := by
  unfold filePages
  rw [mapIdx_concat]
  simp

end Pages

/-! ## §2. One page -/

section WritePage

variable {p : SegmentPager MK} {mk : MK} {w w' : SegmentWriter} {bodies : Bodies}
  {kind : SegmentPageKind} {body : Bytes} {io : WriteOutcome} {id : PageId} {e : FileError}

/-- The writer once its next nonce is taken. -/
def SegmentWriter.tookNonce (w : SegmentWriter) : SegmentWriter := { w with nonceNext := w.nonceNext + 1 }

/-- The writer once a page is written after its nonce was taken. -/
def SegmentWriter.tookPage (w : SegmentWriter) (p : SegmentPager MK) (page : Bytes) : SegmentWriter :=
  { w with
    nonceNext := w.nonceNext + 1
    file := writeAt 0 w.file (w.nextPageId * p.pageSize.bytes) page
    nextPageId := w.nextPageId + 1
    totalBytes := satAdd w.totalBytes p.pageSize.bytes }

variable (h : Wrote p mk w bodies) (hbody : body.length = p.pageSize.bodyLen)

include h hbody

/-- What `writePage` does to a writer that kept its file in order. -/
theorem writePage_cases (kind : SegmentPageKind) (io : WriteOutcome) :
    let page := sealDataPage p.crypto mk w.key kind w.nextPageId (w.key.nonce w.nonceNext) body
    (Nonce.COUNTER_MAX < w.nonceNext ∧ writePage p kind body io w = .error .nonceCounterExhausted w)
      ∨ (w.nonceNext ≤ Nonce.COUNTER_MAX ∧ ∃ n, io = .fails n
        ∧ ∃ w', writePage p kind body io w = .error .io w')
      ∨ (w.nonceNext ≤ Nonce.COUNTER_MAX ∧ io = .completes
        ∧ U64_MAX < w.nextPageId * p.pageSize.bytes + p.pageSize.bytes
        ∧ ∃ e, writePage p kind body io w = .error e w.tookNonce)
      ∨ (w.nonceNext ≤ Nonce.COUNTER_MAX ∧ io = .completes
        ∧ w.nextPageId * p.pageSize.bytes + p.pageSize.bytes ≤ U64_MAX
        ∧ writePage p kind body io w = .ok w.nextPageId (w.tookPage p page)) := by
  intro page
  by_cases hmax : Nonce.COUNTER_MAX < w.nonceNext
  · refine Or.inl ⟨hmax, ?_⟩
    have hnonce : nextNonce w = .error .nonceCounterExhausted w := by
      unfold nextNonce
      rw [get_bind, if_pos hmax]
      rfl
    unfold writePage
    rw [get_bind, bind_of_error hnonce]
  · have hnonce : nextNonce w = .ok (w.key.nonce w.nonceNext) w.tookNonce := by
      unfold nextNonce
      rw [get_bind, if_neg hmax]
      rfl
    have hkey : pinnedMasterKey p w.tookNonce = .ok mk w.tookNonce := by
      unfold pinnedMasterKey
      rw [get_bind, show p.mkFor w.tookNonce.key.mkEpoch w.tookNonce.key.cipherId = some mk
        from h.master]
      rfl
    have hfits : ¬ w.nextPageId * p.pageSize.bytes > U64_MAX := Nat.not_lt.mpr h.fits
    have hrun : writePage p kind body io w
        = (writeFile (w.nextPageId * p.pageSize.bytes) page io >>= fun _ => do
            modify fun w => { w with
              nextPageId := w.nextPageId + 1
              totalBytes := satAdd w.totalBytes p.pageSize.bytes }
            pure w.nextPageId) w.tookNonce := by
      unfold writePage
      rw [get_bind, bind_of_ok hnonce, bind_of_ok hkey, if_neg hfits]
    have hmax' : w.nonceNext ≤ Nonce.COUNTER_MAX := by omega
    rw [hrun]
    cases io with
    | fails n => exact Or.inr (Or.inl ⟨hmax', n, rfl, _, rfl⟩)
    | completes =>
      have hlen : page.length = p.pageSize.bytes := sealDataPage_length hbody
      by_cases hover : w.nextPageId * p.pageSize.bytes + p.pageSize.bytes > U64_MAX
      · have hwrite : writeFile (w.nextPageId * p.pageSize.bytes) page .completes w.tookNonce
            = .error (.arithmeticOverflow "positional write offset") w.tookNonce := by
          unfold writeFile writeAllAt
          rw [hlen, if_pos hover]
        exact Or.inr (Or.inr (Or.inl ⟨hmax', rfl, hover, _, bind_of_error hwrite⟩))
      · have hwrite : writeFile (w.nextPageId * p.pageSize.bytes) page .completes w.tookNonce
            = .ok () { w.tookNonce with
                file := writeAt 0 w.file (w.nextPageId * p.pageSize.bytes) page } := by
          unfold writeFile writeAllAt
          rw [hlen, if_neg hover]
          rfl
        refine Or.inr (Or.inr (Or.inr ⟨hmax', rfl, Nat.not_lt.mp hover, ?_⟩))
        rw [bind_of_ok hwrite]
        rfl

/-- A completed write keeps the file in order. -/
theorem Wrote.tookPage (hmax : w.nonceNext ≤ Nonce.COUNTER_MAX)
    (hfit : w.nextPageId * p.pageSize.bytes + p.pageSize.bytes ≤ U64_MAX) :
    Wrote p mk (w.tookPage p
        (sealDataPage p.crypto mk w.key kind w.nextPageId (w.key.nonce w.nonceNext) body))
      (bodies ++ [(kind, body)]) := by
  -- with counters left, the nonce of the page carries the page's id
  have hcounter : w.nonceNext = w.nextPageId := by
    rcases h.counter with heq | hgt
    · exact heq
    · omega
  have hnext : (w.nextPageId + 1) * p.pageSize.bytes
      = w.nextPageId * p.pageSize.bytes + p.pageSize.bytes := by ring
  constructor
  · exact h.master
  · exact h.segmentId
  · exact h.realmId
  · exact h.mkEpoch
  · exact h.parentFileId
  · show writeAt 0 w.file (w.nextPageId * p.pageSize.bytes) _
      = (filePages p mk w (bodies ++ [(kind, body)])).flatten
    rw [← h.file_length, writeAt_end, filePages_append, ← h.file, hcounter, h.next]
    rfl
  · intro b hb
    rcases mem_concat.mp hb with hb | rfl
    · exact h.full b hb
    · exact hbody
  · show w.nextPageId + 1 = _
    rw [h.next, length_append]
    rfl
  · rw [length_append, length_singleton, ← h.next, ← hcounter]
    exact hmax
  · show (w.nextPageId + 1) * p.pageSize.bytes ≤ U64_MAX
    rw [hnext]
    exact hfit
  · show satAdd w.totalBytes p.pageSize.bytes = (w.nextPageId + 1) * p.pageSize.bytes
    rw [h.total, hnext]
    exact Nat.min_eq_left hfit
  · exact Or.inl (congrArg (· + 1) hcounter)

/-- **A page that was written.** -/
theorem writePage_eq_ok (hr : writePage p kind body io w = .ok id w') :
    id = w.nextPageId ∧ io = .completes ∧ SameRest w w'
      ∧ Wrote p mk w' (bodies ++ [(kind, body)]) := by
  rcases writePage_cases h hbody kind io with
    ⟨-, hx⟩ | ⟨-, n, -, v, hx⟩ | ⟨-, -, -, e, hx⟩ | ⟨hmax, hio, hfit, hx⟩
  · rw [hx] at hr; cases hr
  · rw [hx] at hr; cases hr
  · rw [hx] at hr; cases hr
  · rw [hx] at hr
    injection hr with hid hw
    rw [← hw]
    exact ⟨hid.symm, hio, rfl, h.tookPage hbody hmax hfit⟩

/-- **A page that was refused**, though nothing went wrong below. -/
theorem writePage_eq_error (hr : writePage p kind body .completes w = .error e w') :
    SameRest w w' ∧ Wrote p mk w' bodies := by
  rcases writePage_cases h hbody kind .completes with
    ⟨-, hx⟩ | ⟨-, n, hio, -⟩ | ⟨hmax, -, hover, e', hx⟩ | ⟨-, -, -, hx⟩
  · rw [hx] at hr
    injection hr with he hw
    rw [← hw]
    exact ⟨rfl, h⟩
  · cases hio
  · rw [hx] at hr
    injection hr with he hw
    rw [← hw]
    refine ⟨rfl, { h with counter := Or.inr ?_ }⟩
    -- the page would end past the last offset, so its counter was the last one
    have hle := p.pageSize.le
    show Nonce.COUNTER_MAX < w.nonceNext + 1
    rcases h.counter with heq | hgt
    · rw [heq]
      by_contra hsmall
      have hmul : (w.nextPageId + 1) * p.pageSize.bytes ≤ Nonce.COUNTER_MAX * 65536 :=
        Nat.mul_le_mul (Nat.not_lt.mp hsmall) hle
      have hnext : (w.nextPageId + 1) * p.pageSize.bytes
          = w.nextPageId * p.pageSize.bytes + p.pageSize.bytes := by ring
      rw [hnext] at hmul
      have hlt : U64_MAX < Nonce.COUNTER_MAX * 65536 := lt_of_lt_of_le hover hmul
      exact absurd hlt (by decide)
    · omega
  · rw [hx] at hr; cases hr

end WritePage

/-! ## §3. The calls -/

theorem PageSize.pad_length {ps : PageSize} {payload : Bytes} (h : payload.length ≤ ps.bodyLen) :
    (ps.pad payload).length = ps.bodyLen := by
  unfold pad
  rw [length_append, zeros_length]
  omega

/-- The bodies of the pages of an extent. -/
def extentBodies (ps : PageSize) (payloads : List Bytes) : Bodies :=
  payloads.map fun payload => (.data, ps.pad payload)

section Calls

variable {p : SegmentPager MK} {mk : MK} {w w' : SegmentWriter} {bodies : Bodies}
  {kind : SegmentPageKind} {payload : Bytes} {io : WriteOutcome} {id : PageId} {e : FileError}
  {pages : List (Bytes × WriteOutcome)}

variable (h : Wrote p mk w bodies)

include h

theorem appendPage_eq_ok (hr : appendPage p kind payload io w = .ok id w') :
    id = w.nextPageId ∧ SameRest w w' ∧ Wrote p mk w' (bodies ++ [(kind, p.pageSize.pad payload)]) := by
  unfold appendPage at hr
  split_ifs at hr with hlong
  · cases hr
  · obtain ⟨hid, -, hsame, hw⟩ :=
      writePage_eq_ok h (PageSize.pad_length (Nat.not_lt.mp hlong)) hr
    exact ⟨hid, hsame, hw⟩

theorem appendPage_eq_error (hr : appendPage p kind payload .completes w = .error e w') :
    SameRest w w' ∧ Wrote p mk w' bodies := by
  unfold appendPage at hr
  split_ifs at hr with hlong
  · cases hr
    exact ⟨rfl, h⟩
  · exact writePage_eq_error h (PageSize.pad_length (Nat.not_lt.mp hlong)) hr

theorem appendPages_eq_ok {acc logical : Nat} (hacc : acc ≤ U64_MAX)
    (hr : appendPages p pages acc w = .ok logical w') :
    logical ≤ U64_MAX ∧ SameRest w w'
      ∧ Wrote p mk w' (bodies ++ extentBodies p.pageSize (pages.map Prod.fst)) := by
  induction pages generalizing acc w bodies with
  | nil =>
    obtain ⟨rfl, rfl⟩ := pure_eq_ok.mp hr
    exact ⟨hacc, rfl, by simpa [extentBodies] using h⟩
  | cons x pages ih =>
    obtain ⟨payload, io⟩ := x
    obtain ⟨id, w₁, hpage, hrest⟩ := bind_eq_ok.mp hr
    obtain ⟨-, hsame, hw₁⟩ := appendPage_eq_ok h hpage
    obtain ⟨hlog, hsame', hw'⟩ := ih hw₁ (Nat.min_le_right _ _) hrest
    refine ⟨hlog, hsame.trans hsame', ?_⟩
    rw [append_assoc] at hw'
    exact hw'

/-- Stopped half way, the loop has appended a part of the pages. -/
theorem appendPages_eq_error {acc : Nat}
    (hland : ∀ x ∈ pages, x.2 = .completes) (hr : appendPages p pages acc w = .error e w') :
    SameRest w w' ∧ ∃ more, Wrote p mk w' (bodies ++ more) := by
  induction pages generalizing acc w bodies with
  | nil => cases hr
  | cons x pages ih =>
    obtain ⟨payload, io⟩ := x
    obtain rfl : io = .completes := hland _ mem_cons_self
    cases hpage : appendPage p .data payload .completes w with
    | error e₁ w₁ =>
      have hx : appendPages p ((payload, .completes) :: pages) acc w = .error e₁ w₁ :=
        bind_of_error hpage
      rw [hx] at hr
      injection hr with he hw
      obtain ⟨hsame, hw₁⟩ := appendPage_eq_error h hpage
      rw [← hw]
      exact ⟨hsame, [], by rw [append_nil]; exact hw₁⟩
    | ok id w₁ =>
      have hx : appendPages p ((payload, .completes) :: pages) acc w
          = appendPages p pages (satAdd acc payload.length) w₁ := bind_of_ok hpage
      rw [hx] at hr
      obtain ⟨-, hsame, hw₁⟩ := appendPage_eq_ok h hpage
      obtain ⟨hsame', more, hw'⟩ :=
        ih hw₁ (fun y hy => hland y (mem_cons_of_mem _ hy)) hr
      rw [append_assoc] at hw'
      exact ⟨hsame.trans hsame', _, hw'⟩

theorem appendExtent_eq_ok {ref : ExtentRef}
    (hr : appendExtent p pages w = .ok ref w') :
    ref = ⟨w.nextPageId, pages.length⟩ ∧ pages ≠ [] ∧ pages.length < 2 ^ 32
      ∧ ∃ logical w₁, logical ≤ U64_MAX ∧ SameRest w w₁
        ∧ w' = { w₁ with extents := w₁.extents ++ [⟨w.nextPageId, pages.length, logical⟩] }
        ∧ Wrote p mk w' (bodies ++ extentBodies p.pageSize (pages.map Prod.fst)) := by
  unfold appendExtent at hr
  by_cases hnil : pages = []
  · rw [if_pos hnil] at hr
    cases hr
  · rw [if_neg hnil, get_bind] at hr
    obtain ⟨logical, w₁, hpages, hr⟩ := bind_eq_ok.mp hr
    obtain ⟨hlog, hsame, hw₁⟩ := appendPages_eq_ok h (Nat.zero_le _) hpages
    split_ifs at hr with hmany
    · cases hr
    · rw [modify_bind] at hr
      obtain ⟨rfl, rfl⟩ := pure_eq_ok.mp hr
      refine ⟨rfl, hnil, Nat.not_le.mp hmany, logical, w₁, hlog, hsame, rfl, ?_⟩
      exact ⟨hw₁.master, hw₁.segmentId, hw₁.realmId, hw₁.mkEpoch, hw₁.parentFileId, hw₁.file, hw₁.full,
        hw₁.next, hw₁.few, hw₁.fits, hw₁.total, hw₁.counter⟩

theorem appendExtent_eq_error (hland : ∀ x ∈ pages, x.2 = .completes)
    (hr : appendExtent p pages w = .error e w') :
    SameRest w w' ∧ ∃ more, Wrote p mk w' (bodies ++ more) := by
  unfold appendExtent at hr
  by_cases hnil : pages = []
  · rw [if_pos hnil] at hr
    cases hr
    exact ⟨rfl, [], by rw [append_nil]; exact h⟩
  · rw [if_neg hnil, get_bind] at hr
    cases hpages : appendPages p pages 0 w with
    | error e₁ w₁ =>
      rw [bind_of_error hpages] at hr
      cases hr
      exact appendPages_eq_error h hland hpages
    | ok logical w₁ =>
      rw [bind_of_ok hpages] at hr
      obtain ⟨-, hsame, hw₁⟩ := appendPages_eq_ok h (Nat.zero_le _) hpages
      split_ifs at hr with hmany
      · cases hr
        exact ⟨hsame, _, hw₁⟩
      · rw [modify_bind] at hr
        cases hr

end Calls

/-! ## §4. A writer's life -/

/-- An entry of the writer's index and the receipt of its call. -/
structure ExtentKept (ps : PageSize) (bodies : Bodies) (e : ExtentIndexEntry)
    (x : ExtentRef × List Bytes) : Prop where
  ref : x.1 = ⟨e.startPageId, e.pageCount⟩
  start : 1 ≤ e.startPageId
  count : e.pageCount = x.2.length
  count_pos : 1 ≤ e.pageCount
  count_lt : e.pageCount < 2 ^ 32
  logical : e.logicalBytes ≤ U64_MAX
  inside : e.startPageId + e.pageCount ≤ bodies.length + 1
  pages : (bodies.drop (e.startPageId - 1)).take e.pageCount = extentBodies ps x.2

/-- The receipts name what the file holds. -/
structure Receipted (ps : PageSize) (w : SegmentWriter) (r : Receipts) (bodies : Bodies) : Prop where
  layout : w.rekeyFooterLayout = none
  manifest : w.manifest = r.manifest
  pages : ∀ x ∈ r.pages, 1 ≤ x.1 ∧ ∃ kind, bodies[x.1 - 1]? = some (kind, ps.pad x.2)
  extents : List.Forall₂ (ExtentKept ps bodies) w.extents r.extents
  ordered : w.extents.Pairwise fun a b => a.startPageId + a.pageCount ≤ b.startPageId

section Life

variable {p : SegmentPager MK} {mk : MK} {ps : PageSize} {w w' : SegmentWriter} {r : Receipts}
  {bodies : Bodies}

theorem ExtentKept.grow {e : ExtentIndexEntry} {x : ExtentRef × List Bytes} (more : Bodies)
    (h : ExtentKept ps bodies e x) : ExtentKept ps (bodies ++ more) e x := by
  have hin := h.inside
  have hstart := h.start
  refine { h with inside := ?_, pages := ?_ }
  · rw [length_append]
    unfold PageId at *
    omega
  · rw [drop_append_of_le_length (by unfold PageId at *; omega),
      take_append_of_le_length (by rw [length_drop]; unfold PageId at *; omega)]
    exact h.pages

variable (h : Receipted ps w r bodies)

include h

theorem Receipted.grow (more : Bodies) (hsame : SameRest w w') :
    Receipted ps w' r (bodies ++ more) := by
  rw [hsame]
  refine ⟨h.layout, h.manifest, ?_, h.extents.imp fun _ _ hx => hx.grow more, h.ordered⟩
  intro x hx
  obtain ⟨hpos, kind, hat⟩ := h.pages x hx
  refine ⟨hpos, kind, ?_⟩
  rw [getElem?_append_left (List.getElem?_eq_some_iff.mp hat).1]
  exact hat

theorem Receipted.of_entry {e : ExtentIndexEntry} (he : e ∈ w.extents) :
    ∃ x ∈ r.extents, ExtentKept ps bodies e x := by
  obtain ⟨hlen, hget⟩ := forall₂_iff_get.mp h.extents
  obtain ⟨i, hi, rfl⟩ := mem_iff_getElem.mp he
  exact ⟨_, get_mem _ ⟨i, hlen ▸ hi⟩, hget i hi (hlen ▸ hi)⟩

theorem Receipted.of_receipt {x : ExtentRef × List Bytes}
    (hx : x ∈ r.extents) : ∃ e ∈ w.extents, ExtentKept ps bodies e x := by
  obtain ⟨hlen, hget⟩ := forall₂_iff_get.mp h.extents
  obtain ⟨i, hi, rfl⟩ := mem_iff_getElem.mp hx
  exact ⟨_, get_mem _ ⟨i, hlen ▸ hi⟩, hget i (hlen ▸ hi) hi⟩

/-- A page the caller has a receipt for. -/
theorem Receipted.addPage {kind : SegmentPageKind} {payload : Bytes} (hn : w.nextPageId = bodies.length + 1) (hsame : SameRest w w') :
    Receipted ps w' { r with pages := r.pages ++ [(w.nextPageId, payload)] }
      (bodies ++ [(kind, ps.pad payload)]) := by
  refine { h.grow [(kind, ps.pad payload)] hsame with pages := ?_ }
  intro x hx
  rcases mem_concat.mp hx with hx | rfl
  · exact (h.grow [(kind, ps.pad payload)] hsame).pages x hx
  · refine ⟨?_, kind, ?_⟩
    · rw [hn]
      exact Nat.le_add_left 1 _
    · show (bodies ++ [(kind, ps.pad payload)])[w.nextPageId - 1]? = _
      rw [hn]
      simp

/-- An extent the caller has a receipt for. -/
theorem Receipted.addExtent {pages : List Bytes} {logical : Nat} (hn : w.nextPageId = bodies.length + 1)
    (hne : pages ≠ []) (hlt : pages.length < 2 ^ 32) (hlog : logical ≤ U64_MAX) (hsame : SameRest w w') :
    Receipted ps { w' with extents := w'.extents ++ [⟨w.nextPageId, pages.length, logical⟩] }
      { r with extents := r.extents ++ [(⟨w.nextPageId, pages.length⟩, pages)] }
      (bodies ++ extentBodies ps pages) := by
  have hgrown := h.grow (extentBodies ps pages) hsame
  have hlen : (extentBodies ps pages).length = pages.length := length_map _
  have hkept : ExtentKept ps (bodies ++ extentBodies ps pages) ⟨w.nextPageId, pages.length, logical⟩
      (⟨w.nextPageId, pages.length⟩, pages) := by
    refine ⟨rfl, ?_, rfl, ?_, hlt, hlog, ?_, ?_⟩
    · rw [hn]
      exact Nat.le_add_left 1 _
    · exact length_pos_iff.mpr hne
    · show w.nextPageId + pages.length ≤ _
      rw [hn, length_append, hlen]
      exact Nat.le_of_eq (Nat.add_right_comm _ _ _)
    · show ((bodies ++ extentBodies ps pages).drop (w.nextPageId - 1)).take pages.length = _
      rw [hn, Nat.add_sub_cancel, drop_left, take_of_length_le (by omega)]
  refine ⟨hgrown.layout, hgrown.manifest, hgrown.pages, ?_, ?_⟩
  · exact rel_append hgrown.extents (List.Forall₂.cons hkept List.Forall₂.nil)
  · -- the extents so far end at the cursor
    refine pairwise_append.mpr ⟨hgrown.ordered, pairwise_singleton _ _, ?_⟩
    intro a ha b hb
    rw [mem_singleton.mp hb]
    have hw : w'.extents = w.extents := by rw [hsame]
    rw [hw] at ha
    obtain ⟨x, -, hx⟩ := h.of_entry ha
    show a.startPageId + a.pageCount ≤ w.nextPageId
    rw [hn]
    exact hx.inside

omit h

/-- The writer kept its file in order, and its receipts name what the file holds. -/
def LifeInv (p : SegmentPager MK) (mk : MK) (life : WriterLife) : Prop :=
  ∃ bodies, Wrote p mk life.writer bodies ∧ Receipted p.pageSize life.writer life.receipts bodies

/-- No write of the call fails. -/
def WriterCall.WritesLand : WriterCall → Prop
  | .appendPage _ _ io => io = .completes
  | .appendExtent pages => ∀ x ∈ pages, x.2 = .completes
  | .setManifest _ => True

/-- The call returns `Ok`. -/
def WriterCall.ReturnsOk (p : SegmentPager MK) (w : SegmentWriter) : WriterCall → Prop
  | .appendPage kind payload io => isOk (Segment.appendPage p kind payload io w)
  | .appendExtent pages => isOk (Segment.appendExtent p pages w)
  | .setManifest manifest => isOk (Segment.setManifest p manifest w)

/-- **A call whose writes land, or that returns `Ok`, keeps the invariant.** -/
theorem LifeInv.step {life : WriterLife} {call : WriterCall} (h : LifeInv p mk life)
    (hcall : call.WritesLand ∨ call.ReturnsOk p life.writer) : LifeInv p mk (life.step p call) := by
  obtain ⟨bodies, hw, hr⟩ := h
  cases call with
  | appendPage kind payload io =>
    unfold WriterLife.step WriterCall.WritesLand WriterCall.ReturnsOk at *
    dsimp only at hcall ⊢
    cases hx : appendPage p kind payload io life.writer with
    | ok id w' =>
      obtain ⟨rfl, hsame, hw'⟩ := appendPage_eq_ok hw hx
      exact ⟨_, hw', hr.addPage hw.next hsame⟩
    | error e w' =>
      rw [hx] at hcall
      obtain rfl : io = .completes := hcall.resolve_right (by simp [isOk])
      obtain ⟨hsame, hw'⟩ := appendPage_eq_error hw hx
      have hr' := hr.grow [] hsame
      rw [append_nil] at hr'
      exact ⟨bodies, hw', hr'⟩
  | appendExtent pages =>
    unfold WriterLife.step WriterCall.WritesLand WriterCall.ReturnsOk at *
    dsimp only at hcall ⊢
    cases hx : appendExtent p pages life.writer with
    | ok ref w' =>
      obtain ⟨rfl, hne, hlt, logical, w₁, hlog, hsame, rfl, hw'⟩ := appendExtent_eq_ok hw hx
      have hlen : (pages.map Prod.fst).length = pages.length := length_map _
      have hne' : pages.map Prod.fst ≠ [] := fun hnil => hne (map_eq_nil_iff.mp hnil)
      have hadd := hr.addExtent hw.next hne' (hlen ▸ hlt) hlog hsame
      rw [hlen] at hadd
      exact ⟨_, hw', hadd⟩
    | error e w' =>
      rw [hx] at hcall
      have hland := hcall.resolve_right (by simp [isOk])
      obtain ⟨hsame, more, hw'⟩ := appendExtent_eq_error hw hland hx
      exact ⟨_, hw', hr.grow more hsame⟩
  | setManifest manifest =>
    unfold WriterLife.step setManifest
    dsimp only
    split_ifs with hlong
    · exact ⟨bodies, hw, hr⟩
    · refine ⟨bodies, ?_, hr.layout, rfl, hr.pages, hr.extents, hr.ordered⟩
      exact ⟨hw.master, hw.segmentId, hw.realmId, hw.mkEpoch, hw.parentFileId, hw.file, hw.full,
        hw.next, hw.few, hw.fits, hw.total, hw.counter⟩

/-- What a create whose write lands makes. -/
theorem createSegment_completes {realmId segmentId : Id16} {kind : SegmentKind}
    (hmk : p.mkFor p.mkEpoch p.cipherId = some mk) :
    createSegment p realmId segmentId kind .completes
      = .ok { SegmentWriter.fresh p realmId.val segmentId.val kind with
          file := (SegmentWriter.fresh p realmId.val segmentId.val kind).headerPage p mk } := by
  have hle := p.pageSize.le
  unfold createSegment
  dsimp only
  rw [hmk]
  dsimp only
  generalize hw : SegmentWriter.fresh p realmId.val segmentId.val kind = w
  have hlog : (w.header p.pageSize).pageSizeLog2 = p.pageSize.log2 := rfl
  have hfile : w.file = [] := by rw [← hw]; rfl
  have hlen := headerPage_length p mk w
  have hwrite : writeAllAt w.file 0 (w.headerPage p mk) .completes = (.ok (), w.headerPage p mk) := by
    unfold writeAllAt
    rw [if_neg (by rw [hlen]; unfold U64_MAX; omega), hfile]
    exact congrArg (Prod.mk _) (writeAt_end 0 [] _)
  unfold SegmentWriter.headerPage at hwrite ⊢
  rw [ok_bind (encodeSegmentHeader_eq hlog), hwrite]
  rfl

/-- A created writer holds its header and nothing else. -/
theorem lifeInv_start {realmId segmentId : Id16} {kind : SegmentKind} {io : WriteOutcome}
    (hc : createSegment p realmId segmentId kind io = .ok w) :
    ∃ mk, LifeInv p mk (WriterLife.start w) := by
  have hle := p.pageSize.le
  cases hmk : p.mkFor p.mkEpoch p.cipherId with
  | none =>
    unfold createSegment at hc
    dsimp only at hc
    rw [hmk] at hc
    cases hc
  | some mk =>
    cases io with
    | fails n =>
      unfold createSegment at hc
      dsimp only at hc
      rw [hmk] at hc
      dsimp only at hc
      obtain ⟨header, -, hc⟩ := except_bind_eq_ok.mp hc
      cases hc
    | completes =>
      rw [createSegment_completes hmk] at hc
      cases hc
      refine ⟨mk, [], ?_, ?_⟩
      · refine ⟨hmk, segmentId.isLt, realmId.isLt, p.mkEpoch_lt, rfl, ?_, by simp, rfl,
          Nat.zero_le _, ?_, ?_, Or.inl rfl⟩
        · exact (append_nil _).symm
        · show 1 * p.pageSize.bytes ≤ U64_MAX
          unfold U64_MAX
          omega
        · exact (Nat.one_mul _).symm
      · exact ⟨rfl, rfl, by simp [WriterLife.start], List.Forall₂.nil, List.Pairwise.nil⟩

end Life

/-! ## §5. Seal -/

/-- The bodies of the index block, from page `first` on. -/
def indexBodies (ps : PageSize) (extents : List ExtentIndexEntry) (first count : Nat) : Bodies :=
  (List.range' first count).map fun i => (.index, indexBody ps extents i)

/-- How many index pages the entries take. -/
def PageSize.indexPages (ps : PageSize) (extents : List ExtentIndexEntry) : Nat :=
  (extents.length + ps.entriesPerPage - 1) / ps.entriesPerPage

/-- The index block in front of the footer: absent, or right behind the pages. -/
def IndexAt (ps : PageSize) (extents : List ExtentIndexEntry) (bodies all : Bodies)
    (index : Nat × Nat) : Prop :=
  (extents = [] ∧ all = bodies ∧ index = (0, 0)) ∨ (extents ≠ [] ∧ ps.indexPages extents < 2 ^ 32
      ∧ all = bodies ++ indexBodies ps extents 0 (ps.indexPages extents)
      ∧ index = (bodies.length + 1, ps.indexPages extents))

/-- A sealed file: the writer at its footer, and what the seal added. -/
structure SealedAs (p : SegmentPager MK) (mk : MK) (w : SegmentWriter) (all : Bodies)
    (index : Nat × Nat) (m : SegmentMeta) (file : Bytes) : Prop where
  wrote : Wrote p mk w all
  counter : w.nonceNext = w.nextPageId
  last : w.nextPageId ≤ Nonce.COUNTER_MAX
  room : w.nextPageId * p.pageSize.bytes + p.pageSize.bytes ≤ U64_MAX
  manifest_le : w.manifest.length ≤ maxManifestLen p.pageSize.bytes
  meta_eq : m = w.sealedMeta (w.footer p.pageSize index)
  file_eq : file = w.file ++ (w.footer p.pageSize index).page p.crypto mk p.pageSize.bytes
    (sealManifest p.crypto mk w.key (w.footer p.pageSize index) w.manifest)

section Seal

variable {p : SegmentPager MK} {mk : MK} {w w' : SegmentWriter} {bodies : Bodies}
  {extents : List ExtentIndexEntry}

theorem ExtentIndexEntry.pieces_widths (e : ExtentIndexEntry) :
    e.pieces.map List.length = ENTRY_WIDTHS := by
  simp [pieces, ENTRY_WIDTHS]

theorem ExtentIndexEntry.encode_length (e : ExtentIndexEntry) :
    e.encode.length = EXTENT_INDEX_ENTRY_LEN :=
  flatten_length_of_widths e.pieces_widths

theorem encodeEntries_length (es : List ExtentIndexEntry) :
    (es.map ExtentIndexEntry.encode).flatten.length = es.length * EXTENT_INDEX_ENTRY_LEN := by
  have h : ∀ b ∈ es.map ExtentIndexEntry.encode, b.length = EXTENT_INDEX_ENTRY_LEN := by
    intro b hb
    obtain ⟨e, -, rfl⟩ := mem_map.mp hb
    exact e.encode_length
  rw [flatten_length_of_blocks h, length_map]

theorem indexBody_length (ps : PageSize) (extents : List ExtentIndexEntry) (i : Nat) :
    (indexBody ps extents i).length = ps.bodyLen := by
  refine PageSize.pad_length ?_
  rw [encodeEntries_length, length_take]
  have hdiv : ps.entriesPerPage * EXTENT_INDEX_ENTRY_LEN ≤ ps.bodyLen := Nat.div_mul_le_self _ _
  exact (Nat.mul_le_mul_right _ (Nat.min_le_left _ _)).trans hdiv

theorem writeIndexPages_eq_ok {io : Nat → WriteOutcome} {remaining first : Nat} {u : Unit}
    (h : Wrote p mk w bodies) (hr : writeIndexPages p extents io remaining first w = .ok u w') :
    SameRest w w' ∧ Wrote p mk w' (bodies ++ indexBodies p.pageSize extents first remaining) := by
  induction remaining generalizing first w bodies with
  | zero =>
    obtain ⟨-, rfl⟩ := pure_eq_ok.mp hr
    refine ⟨rfl, ?_⟩
    show Wrote p mk w (bodies ++ [])
    rw [append_nil]
    exact h
  | succ remaining ih =>
    obtain ⟨id, w₁, hpage, hrest⟩ := bind_eq_ok.mp hr
    obtain ⟨-, -, hsame, hw₁⟩ := writePage_eq_ok h (indexBody_length _ _ _) hpage
    obtain ⟨hsame', hw'⟩ := ih hw₁ hrest
    rw [append_assoc] at hw'
    exact ⟨hsame.trans hsame', hw'⟩

theorem writeIndexBlock_eq_ok {io : Nat → WriteOutcome} {index : Nat × Nat}
    (h : Wrote p mk w bodies) (hlayout : w.rekeyFooterLayout = none)
    (hr : writeIndexBlock p io w = .ok index w') :
    SameRest w w' ∧ ∃ all, Wrote p mk w' all ∧ IndexAt p.pageSize w.extents bodies all index := by
  unfold writeIndexBlock at hr
  rw [get_bind, hlayout] at hr
  dsimp only at hr
  by_cases hnil : w.extents = []
  · rw [if_pos hnil] at hr
    obtain ⟨rfl, rfl⟩ := pure_eq_ok.mp hr
    exact ⟨rfl, bodies, h, Or.inl ⟨hnil, rfl, rfl⟩⟩
  · rw [if_neg hnil] at hr
    by_cases hmany : p.pageSize.indexPages w.extents ≥ 2 ^ 32
    · have hthrow : (throw FileError.payloadTooLarge : WriterM (Nat × Nat)) w = .ok index w' := by
        rw [← hr]
        exact (congrFun (if_pos hmany) w).symm
      cases hthrow
    · have hrun : (writeIndexPages p w.extents io (p.pageSize.indexPages w.extents) 0 >>= fun _ =>
          pure (w.nextPageId, p.pageSize.indexPages w.extents) : WriterM (Nat × Nat)) w
          = .ok index w' := by
        rw [← hr]
        exact (congrFun (if_neg hmany) w).symm
      obtain ⟨u, w₁, hpages, hpure⟩ := bind_eq_ok.mp hrun
      obtain ⟨rfl, rfl⟩ := pure_eq_ok.mp hpure
      obtain ⟨hsame, hw₁⟩ := writeIndexPages_eq_ok h hpages
      exact ⟨hsame, _, hw₁, Or.inr ⟨hnil, Nat.not_le.mp hmany, rfl, by rw [h.next]⟩⟩

theorem writeFile_eq_ok {offset : Nat} {data : Bytes} {io : WriteOutcome} {u : Unit}
    (h : writeFile offset data io w = .ok u w') :
    offset + data.length ≤ U64_MAX ∧ w' = { w with file := writeAt 0 w.file offset data } := by
  cases io with
  | fails n => cases h
  | completes =>
    unfold writeFile writeAllAt at h
    by_cases hover : offset + data.length > U64_MAX
    · rw [if_pos hover] at h
      cases h
    · rw [if_neg hover] at h
      cases h
      exact ⟨Nat.not_lt.mp hover, rfl⟩

/-- **The file a seal leaves behind.** -/
theorem sealSegment_eq_ok {io : SealOutcome} {m : SegmentMeta} (h : Wrote p mk w bodies)
    (hlayout : w.rekeyFooterLayout = none) (hr : sealSegment p io w = .ok m w') :
    ∃ w₁ all index, SameRest w w₁ ∧ IndexAt p.pageSize w.extents bodies all index
      ∧ SealedAs p mk w₁ all index m w'.file := by
  have hkey : pinnedMasterKey p w = .ok mk w := by
    unfold pinnedMasterKey
    rw [get_bind, h.master]
    rfl
  unfold sealSegment at hr
  rw [bind_of_ok hkey] at hr
  obtain ⟨index, w₁, hindex, hr⟩ := bind_eq_ok.mp hr
  obtain ⟨hsame, all, hw₁, hat⟩ := writeIndexBlock_eq_ok h hlayout hindex
  rw [get_bind] at hr
  cases hfoot : encodeSegmentFooter p.crypto mk w₁.key (w₁.footer p.pageSize index) w₁.manifest
      p.pageSize.bytes with
  | error e => rw [hfoot] at hr; cases hr
  | ok page =>
    obtain ⟨hman, hmax, rfl⟩ := encodeSegmentFooter_eq_ok hfoot
    rw [hfoot] at hr
    dsimp only at hr
    rw [if_neg (Nat.not_lt.mpr hw₁.fits)] at hr
    obtain ⟨u, w₂, hwrite, hr⟩ := bind_eq_ok.mp hr
    -- the footer's counter fits, so no nonce was lost
    have hcounter : w₁.nonceNext = w₁.nextPageId := by
      rcases hw₁.counter with heq | hgt
      · exact heq
      · have : (w₁.nonceNext - 1) + 1 ≤ Nonce.COUNTER_MAX := hmax
        omega
    have hlast : w₁.nextPageId ≤ Nonce.COUNTER_MAX := by
      have hfinal : (w₁.nonceNext - 1) + 1 ≤ Nonce.COUNTER_MAX := hmax
      have hnext : w₁.nonceNext ≤ Nonce.COUNTER_MAX := by omega
      exact hcounter ▸ hnext
    obtain ⟨hroom, hw₂⟩ := writeFile_eq_ok hwrite
    rw [footerPage_length hman] at hroom
    have hm : m = w₁.sealedMeta (w₁.footer p.pageSize index) ∧ w' = w₂ := by
      cases hs : io.synced with
      | false => rw [hs, if_pos rfl] at hr; cases hr
      | true =>
        rw [hs, if_neg (by decide)] at hr
        obtain ⟨hm, hw⟩ := pure_eq_ok.mp hr
        exact ⟨hm.symm, hw.symm⟩
    refine ⟨w₁, all, index, hsame, hat, hw₁, hcounter, hlast, hroom, hman, hm.1, ?_⟩
    rw [hm.2, hw₂, ← hw₁.file_length, writeAt_end]

end Seal

end Pagedb.Segment
