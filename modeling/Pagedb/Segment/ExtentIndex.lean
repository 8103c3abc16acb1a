/-
  Pagedb.Segment.ExtentIndex — what the decoder of the extent index accepts.

  Order and the unused tail are carried by the scan from chunk to chunk, across the
  pages of the index; `Scanned` says what they mean for the chunks behind it.
-/
import Pagedb.Segment.RoundTrip

namespace Pagedb.Segment

open Lib List

variable {MK : Type}

/-- The entries of an index page, still encoded. -/
def indexChunks (pageBody : Bytes) : List Bytes :=
  fields (List.replicate (pageBody.length / EXTENT_INDEX_ENTRY_LEN) EXTENT_INDEX_ENTRY_LEN) pageBody

/-- What the scan has made of the chunks behind it. -/
structure Scanned (indexStart : PageId) (chunks : List Bytes) (s : IndexScan) : Prop where
  split : ∃ used unused, chunks = used ++ unused ∧ (∀ c ∈ used, ¬ AllZero c)
    ∧ (∀ c ∈ unused, AllZero c) ∧ s.entries = used.map ExtentIndexEntry.decode
    ∧ (s.unusedTail = false → unused = [])
  inside : ∀ e ∈ s.entries, 0 < e.startPageId ∧ 0 < e.pageCount
    ∧ e.startPageId + e.pageCount ≤ indexStart
  ordered : s.entries.Pairwise fun a b => a.startPageId + a.pageCount ≤ b.startPageId
  behind : ∀ e ∈ s.entries, e.startPageId + e.pageCount ≤ s.previousEnd

theorem Scanned.step {indexStart : PageId} {chunks : List Bytes} {s s' : IndexScan} {c : Bytes}
    (h : Scanned indexStart chunks s) (hrun : validateIndexEntry indexStart s c = .ok s') :
    Scanned indexStart (chunks ++ [c]) s' := by
  obtain ⟨used, unused, rfl, hused, hunused, hentries, htail⟩ := h.split
  unfold validateIndexEntry at hrun
  split_ifs at hrun with hzero
  · cases hrun
    refine ⟨⟨used, unused ++ [c], append_assoc .., hused, ?_, hentries, fun h => by cases h⟩, h.inside, h.ordered,
      h.behind⟩
    exact forall_mem_append.mpr ⟨hunused, forall_mem_singleton.mpr hzero⟩
  · obtain ⟨hopen, hrun⟩ := require_bind_eq_ok.mp hrun
    obtain ⟨-, hrun⟩ := require_bind_eq_ok.mp hrun
    obtain ⟨⟨hstart, hcount⟩, hrun⟩ := require_bind_eq_ok.mp hrun
    obtain ⟨-, hrun⟩ := require_bind_eq_ok.mp hrun
    obtain ⟨hinside, hrun⟩ := require_bind_eq_ok.mp hrun
    obtain ⟨hprev, hrun⟩ := require_bind_eq_ok.mp hrun
    cases hrun
    cases htail hopen
    -- an end of 0 stands for "no entry yet"
    have hbehind : ∀ e ∈ s.entries, e.startPageId + e.pageCount
        ≤ (ExtentIndexEntry.decode c).startPageId := fun e he =>
      (h.behind e he).trans (hprev.resolve_left fun hnone =>
        absurd (hnone ▸ h.behind e he) (Nat.not_le_of_lt (Nat.add_pos_left (h.inside e he).1 _)))
    refine ⟨⟨used ++ [c], [], by simp, ?_, by rintro _ ⟨⟩, by simp [hentries], fun _ => rfl⟩, ?_, ?_, ?_⟩
    · exact forall_mem_append.mpr ⟨hused, forall_mem_singleton.mpr hzero⟩
    · refine forall_mem_append.mpr ⟨h.inside, forall_mem_singleton.mpr ⟨?_, ?_, hinside⟩⟩
      · exact Nat.pos_of_ne_zero hstart
      · exact Nat.pos_of_ne_zero hcount
    · refine pairwise_append.mpr ⟨h.ordered, pairwise_singleton _ _, fun e he => ?_⟩
      exact forall_mem_singleton.mpr (hbehind e he)
    · refine forall_mem_append.mpr ⟨fun e he => ?_, forall_mem_singleton.mpr le_rfl⟩
      exact (hbehind e he).trans (Nat.le_add_right _ _)

/-- **An accepted extent index is ordered and disjoint.**  Its entries are the non-zero
    chunks of the index pages, which no zero chunk precedes. -/
theorem extent_index_ordered (p : SegmentPager MK) (file : Bytes) (m : SegmentMeta) (mk : MK)
    (f : SegmentFooterFields) (cipherId : CipherId) (entries : List ExtentIndexEntry)
    (h : decodeExtentIndex p file m mk f cipherId = .ok entries) :
    entries.Pairwise (fun a b => a.startPageId < b.startPageId)
      ∧ entries.Pairwise (fun a b =>
        (range' a.startPageId a.pageCount).Disjoint (range' b.startPageId b.pageCount))
      ∧ (∀ e ∈ entries, 0 < e.pageCount
        ∧ ∀ q ∈ range' e.startPageId e.pageCount, 1 ≤ q ∧ q < f.indexStartPage)
      ∧ (∃ bodies used unused, Forall₂ (fun i body => collectAndDecodeIndexPage p file m mk cipherId
          (f.indexStartPage + i) = .ok body) (range f.indexPageCount) bodies
        ∧ bodies.flatMap indexChunks = used ++ unused ∧ (∀ c ∈ used, ¬ AllZero c)
        ∧ (∀ c ∈ unused, AllZero c) ∧ entries = used.map ExtentIndexEntry.decode)
      ∧ ∀ id e, binarySearchByKey ExtentIndexEntry.startPageId entries id = some e
        ↔ e ∈ entries ∧ e.startPageId = id := by
  obtain ⟨s, hloop, rfl⟩ : ∃ s, (range f.indexPageCount).foldlM
      (decodeIndexPage p file m mk f cipherId) ⟨0, false, []⟩ = .ok s ∧ s.entries = entries := by
    unfold decodeExtentIndex at h
    split_ifs at h with hnone
    · cases h
      exact ⟨_, by rw [hnone]; rfl, rfl⟩
    · obtain ⟨-, h⟩ := require_bind_eq_ok.mp h
      obtain ⟨-, h⟩ := require_bind_eq_ok.mp h
      obtain ⟨-, h⟩ := require_bind_eq_ok.mp h
      obtain ⟨s, hloop, h⟩ := except_bind_eq_ok.mp h
      obtain ⟨-, h⟩ := require_bind_eq_ok.mp h
      exact ⟨s, hloop, Except.ok.inj h⟩
  -- the pages read so far, and the scan over their chunks
  have hscan := foldlM_keeps (P := fun pages s => ∃ bodies, Forall₂ (fun i body =>
      collectAndDecodeIndexPage p file m mk cipherId (f.indexStartPage + i) = .ok body) pages bodies
      ∧ Scanned f.indexStartPage (bodies.flatMap indexChunks) s) (fun hs hpage => by
    obtain ⟨bodies, hbodies, hs⟩ := hs
    obtain ⟨-, hpage⟩ := require_bind_eq_ok.mp hpage
    obtain ⟨body, hbody, hpage⟩ := except_bind_eq_ok.mp hpage
    obtain ⟨-, hpage⟩ := require_bind_eq_ok.mp hpage
    refine ⟨bodies ++ [body], rel_append hbodies (.cons hbody .nil), ?_⟩
    rw [flatMap_append, flatMap_singleton]
    exact foldlM_keeps Scanned.step hs hpage)
    ⟨[], .nil, ⟨[], [], by simp⟩, by simp, .nil, by simp⟩ hloop
  obtain ⟨bodies, hbodies, hs⟩ := hscan
  obtain ⟨used, unused, hchunks, hused, hunused, hentries, -⟩ := hs.split
  have hasc : s.entries.Pairwise fun a b => a.startPageId < b.startPageId :=
    hs.ordered.imp_of_mem fun ha _ hab =>
      Nat.lt_of_lt_of_le (Nat.lt_add_of_pos_right (hs.inside _ ha).2.1) hab
  refine ⟨hasc, hs.ordered.imp fun hab q ha hb => ?_, fun e he => ?_, ?_, fun id e =>
    binarySearchByKey_eq_some hasc⟩
  · rw [mem_range'_1] at ha hb
    exact absurd ha.2 (Nat.not_lt.mpr (hab.trans hb.1))
  · obtain ⟨hstart, hcount, hinside⟩ := hs.inside e he
    refine ⟨hcount, fun q hq => ?_⟩
    rw [mem_range'_1] at hq
    exact ⟨Nat.le_trans hstart hq.1, Nat.lt_of_lt_of_le hq.2 hinside⟩
  · exact ⟨bodies, used, unused, hbodies, hchunks, hused, hunused, hentries⟩

/-- A writer over the plain pager that has written these pages. -/
def writerOf (bodies : Bodies) : SegmentWriter :=
  { plainWriter with
    file := (filePages plainPager () plainWriter bodies).flatten
    nonceNext := bodies.length + 1
    nextPageId := bodies.length + 1
    totalBytes := (bodies.length + 1) * 4096 }

theorem writerOf_wrote {bodies : Bodies} (hlen : bodies.length < 1000)
    (hfull : ∀ b ∈ bodies, b.2.length = plainPager.pageSize.bodyLen) :
    Wrote plainPager () (writerOf bodies) bodies where
  master := rfl
  segmentId := show 5 < 256 ^ 16 by decide
  realmId := show 3 < 256 ^ 16 by decide
  mkEpoch := show 0 < 256 ^ 8 by decide
  parentFileId := rfl
  file := by
    unfold filePages SegmentWriter.headerPage SegmentWriter.header writerOf
    dsimp only
    rfl
  full := hfull
  next := rfl
  few := hlen.le.trans (by decide)
  fits := (Nat.mul_le_mul_right 4096 hlen).trans (by decide)
  total := rfl
  counter := Or.inl rfl

/-- More extents than an index page has room for. -/
def manyExtents : List ExtentIndexEntry := (range 127).map fun i => ⟨i + 1, 1, 1⟩

/-- Their pages, and the two pages of their index. -/
def manyBodies : Bodies :=
  replicate 127 (.data, plainPager.pageSize.pad [1]) ++ indexBodies plainPager.pageSize manyExtents 0 2

/-- The index of a sealed segment, over two pages. -/
theorem extent_index_ordered_paged :
    ∃ m file, SealedAs plainPager () (writerOf manyBodies) manyBodies (128, 2) m file
      ∧ decodeExtentIndex plainPager file m () ((writerOf manyBodies).footer plainPager.pageSize (128, 2))
        .plaintextMac = .ok manyExtents
      ∧ binarySearchByKey ExtentIndexEntry.startPageId manyExtents 127 = some ⟨127, 1, 1⟩ := by
  have hlen : manyBodies.length = 129 := by
    unfold manyBodies
    rw [length_append, length_replicate, length_indexBodies]
  have hwrote : Wrote plainPager () (writerOf manyBodies) manyBodies := by
    refine writerOf_wrote (by rw [hlen]; decide) fun b hb => ?_
    rcases mem_append.mp hb with hb | hb
    · rw [eq_of_mem_replicate hb]
      exact PageSize.pad_length (by decide)
    · obtain ⟨i, -, rfl⟩ := mem_map.mp hb
      exact indexBody_length _ _ _
  obtain ⟨m, file, hsealed⟩ : ∃ m file,
      SealedAs plainPager () (writerOf manyBodies) manyBodies (128, 2) m file := by
    refine ⟨_, _, hwrote, rfl, ?_, ?_, Nat.zero_le _, rfl, rfl⟩ <;> rw [hwrote.next, hlen] <;> decide
  have hpages : plainPager.pageSize.indexPages manyExtents = 2 := by decide +kernel
  have hat : IndexAt plainPager.pageSize manyExtents
      (replicate 127 (.data, plainPager.pageSize.pad [1])) manyBodies (128, 2) := by
    refine Or.inr ⟨by simp [manyExtents], ?_, ?_, ?_⟩ <;> rw [hpages]
    · decide
    · rfl
    · rw [length_replicate]
  have hok : IndexOk plainPager.pageSize manyExtents
      (length (replicate 127 (SegmentPageKind.data, plainPager.pageSize.pad [1])) + 1) := by
    refine ⟨fun e he => ?_, by decide +kernel⟩
    obtain ⟨i, hi, rfl⟩ := mem_map.mp he
    rw [length_replicate]
    exact ⟨Nat.le_add_left 1 i, Nat.le_refl 1, Nat.one_lt_pow (by decide) (by decide),
      Nat.one_lt_pow (by decide) (by decide), Nat.succ_le_succ (mem_range.mp hi)⟩
  have hdecode := hsealed.decodeIndex hat hok
  refine ⟨m, file, hsealed, hdecode, ?_⟩
  exact ((extent_index_ordered plainPager _ _ () _ .plaintextMac _ hdecode).2.2.2.2 127 _).mpr
    ⟨by decide +kernel, rfl⟩

end Pagedb.Segment
