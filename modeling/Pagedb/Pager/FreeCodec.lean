/-
  Pagedb.Pager.FreeCodec — the bytes of a free-list chain page
  (`pager/freelist/layout.rs`, and the page bodies of `write_chain`).

      [0..8)   next chain page          [20..28) suffix max commit id
      [8..12)  entry count              [28..36) suffix min commit id
      [12..20) suffix entry total       [36..)   entries, 16 bytes each

  Main result: `decodeChainPage_encode` — a page that fits is read back as it was
  written.
-/
import Pagedb.Lib.Bytes
import Pagedb.Lib.Layout
import Pagedb.Pager.FreeList

namespace Pagedb

open Lib List

/-- `ENTRY_LEN`. -/
def ENTRY_LEN : Nat := 16

/-- `PAGE_HEADER_LEN`. -/
def PAGE_HEADER_LEN : Nat := 36

/-- Why a chain page is refused: `CatalogRowInvalid` with this field. -/
inductive ChainPageFault where
  | shortHeader
  | countOverCapacity
  | suffixBelowCount
  | entryPastBody
  deriving DecidableEq, Repr

/-- `ChainPageHeader`. -/
structure ChainPageHeader where
  next : PageId
  count : Nat
  suffixEntries : Nat
  suffixMaxCid : CommitId
  suffixMinCid : CommitId
  deriving DecidableEq, Repr

/-- `decode_chain_header`. -/
def decodeChainHeader (body : Bytes) : Except ChainPageFault ChainPageHeader := do
  require (PAGE_HEADER_LEN ≤ body.length) .shortHeader
  let next := ofLeBytes (slice body 0 8)
  let count := ofLeBytes (slice body 8 4)
  require (count ≤ (body.length - PAGE_HEADER_LEN) / ENTRY_LEN) .countOverCapacity
  let suffixEntries := ofLeBytes (slice body 12 8)
  let suffixMaxCid := ofLeBytes (slice body 20 8)
  let suffixMinCid := ofLeBytes (slice body 28 8)
  require (count ≤ suffixEntries) .suffixBelowCount
  pure { next, count, suffixEntries, suffixMaxCid, suffixMinCid }

/-- `decode_entry`. -/
def decodeEntry (body : Bytes) (index : Nat) : Except ChainPageFault (CommitId × PageId) := do
  let offset := PAGE_HEADER_LEN + index * ENTRY_LEN
  require (offset + ENTRY_LEN ≤ body.length) .entryPastBody
  pure (ofLeBytes (slice body offset 8), ofLeBytes (slice body (offset + 8) 8))

/-- What `ChainWalk::advance` decodes of a page. -/
def decodeChainPage (body : Bytes) : Except ChainPageFault FreePage := do
  let header ← decodeChainHeader body
  let entries ← (List.range header.count).mapM (decodeEntry body)
  pure { next := header.next, entries, suffixEntries := header.suffixEntries
         suffixMaxCid := header.suffixMaxCid, suffixMinCid := header.suffixMinCid }

/-- One entry of a page body. -/
def encodeEntry (e : CommitId × PageId) : Bytes := leBytes 8 e.1 ++ leBytes 8 e.2

/-- `encode_chain_header`. -/
def encodeChainHeader (page : FreePage) : Bytes :=
  leBytes 8 page.next ++ (leBytes 4 page.entries.length ++ (leBytes 8 page.suffixEntries
    ++ (leBytes 8 page.suffixMaxCid ++ leBytes 8 page.suffixMinCid)))

/-- The body `write_chain` writes for a page: the header and the entries in a
    body of zeros. -/
def encodeChainPage (pageSize : Nat) (page : FreePage) : Bytes :=
  encodeChainHeader page ++ ((page.entries.map encodeEntry).flatten
    ++ List.replicate (bodyCapacity pageSize - PAGE_HEADER_LEN - page.entries.length * ENTRY_LEN) 0)

/-- The page's integers are `u64`, its entries fit, and its total counts them. -/
structure FreePage.Fits (page : FreePage) (pageSize : Nat) : Prop where
  room : page.entries.length ≤ chainCapacity pageSize
  small : page.entries.length < 256 ^ 4
  counted : page.entries.length ≤ page.suffixEntries
  next : page.next ≤ U64_MAX
  total : page.suffixEntries ≤ U64_MAX
  largest : page.suffixMaxCid ≤ U64_MAX
  smallest : page.suffixMinCid ≤ U64_MAX
  entries : ∀ e ∈ page.entries, e.1 ≤ U64_MAX ∧ e.2 ≤ U64_MAX

theorem encodeEntry_length (e : CommitId × PageId) : (encodeEntry e).length = ENTRY_LEN := by
  unfold encodeEntry
  rw [length_append, leBytes_length, leBytes_length]
  rfl

theorem encodeChainHeader_length (page : FreePage) :
    (encodeChainHeader page).length = PAGE_HEADER_LEN := by
  unfold encodeChainHeader
  simp only [length_append, leBytes_length]
  rfl

theorem encodedEntries_length (entries : List (CommitId × PageId)) :
    ((entries.map encodeEntry).flatten).length = entries.length * ENTRY_LEN := by
  have hall : ∀ b ∈ entries.map encodeEntry, b.length = ENTRY_LEN := by
    intro b hb
    obtain ⟨e, -, rfl⟩ := mem_map.mp hb
    exact encodeEntry_length e
  rw [flatten_length_of_blocks hall, length_map]

theorem ofLeBytes_u64 {n : Nat} (h : n ≤ U64_MAX) : ofLeBytes (leBytes 8 n) = n :=
  ofLeBytes_leBytes_of_lt (Nat.lt_of_le_of_lt h (by decide))

section RoundTrip

variable {page : FreePage} {pageSize : Nat}

theorem FreePage.Fits.bytes_le (h : page.Fits pageSize) :
    page.entries.length * ENTRY_LEN ≤ bodyCapacity pageSize - PAGE_HEADER_LEN :=
  (Nat.mul_le_mul_right _ h.room).trans (Nat.div_mul_le_self _ _)

variable (h : page.Fits pageSize) (hsize : PAGE_HEADER_LEN ≤ bodyCapacity pageSize)

include h hsize

theorem encodeChainPage_length :
    (encodeChainPage pageSize page).length = bodyCapacity pageSize := by
  have hbytes := h.bytes_le
  unfold encodeChainPage
  rw [length_append, length_append, encodeChainHeader_length, encodedEntries_length,
    length_replicate]
  omega

/-- The header is read back. -/
theorem decodeChainHeader_encode :
    decodeChainHeader (encodeChainPage pageSize page)
      = .ok { next := page.next, count := page.entries.length
              suffixEntries := page.suffixEntries, suffixMaxCid := page.suffixMaxCid
              suffixMinCid := page.suffixMinCid } := by
  have hlen := encodeChainPage_length h hsize
  unfold decodeChainHeader
  rw [require_bind (by rw [hlen]; exact hsize)]
  have hbytes : encodeChainPage pageSize page = leBytes 8 page.next
      ++ (leBytes 4 page.entries.length ++ (leBytes 8 page.suffixEntries
        ++ (leBytes 8 page.suffixMaxCid ++ (leBytes 8 page.suffixMinCid
          ++ ((page.entries.map encodeEntry).flatten ++ List.replicate (bodyCapacity pageSize
            - PAGE_HEADER_LEN - page.entries.length * ENTRY_LEN) 0))))) := by
    unfold encodeChainPage encodeChainHeader
    simp only [append_assoc]
  have hnext : slice (encodeChainPage pageSize page) 0 8 = leBytes 8 page.next := by
    rw [hbytes]
    exact @slice_mid _ [] _ _ 0 8 rfl (leBytes_length 8 _)
  have hcount : slice (encodeChainPage pageSize page) 8 4 = leBytes 4 page.entries.length := by
    rw [hbytes]
    exact slice_mid (leBytes_length 8 _) (leBytes_length 4 _)
  have htotal : slice (encodeChainPage pageSize page) 12 8 = leBytes 8 page.suffixEntries := by
    rw [hbytes, ← append_assoc]
    exact slice_mid (by simp) (leBytes_length 8 _)
  have hmax : slice (encodeChainPage pageSize page) 20 8 = leBytes 8 page.suffixMaxCid := by
    rw [hbytes, ← append_assoc, ← append_assoc]
    exact slice_mid (by simp) (leBytes_length 8 _)
  have hmin : slice (encodeChainPage pageSize page) 28 8 = leBytes 8 page.suffixMinCid := by
    rw [hbytes, ← append_assoc, ← append_assoc, ← append_assoc]
    exact slice_mid (by simp) (leBytes_length 8 _)
  rw [hnext, hcount, htotal, hmax, hmin, ofLeBytes_u64 h.next, ofLeBytes_u64 h.total,
    ofLeBytes_u64 h.largest, ofLeBytes_u64 h.smallest, ofLeBytes_leBytes_of_lt h.small]
  rw [require_bind (by rw [hlen]; exact h.room), require_bind h.counted]
  rfl

/-- An entry is read back. -/
theorem decodeEntry_encode {i : Nat} {e : CommitId × PageId} (hi : page.entries[i]? = some e) :
    decodeEntry (encodeChainPage pageSize page) i = .ok e := by
  have hlen := encodeChainPage_length h hsize
  have hlt := (List.getElem?_eq_some_iff.mp hi).1
  have hbytes := h.bytes_le
  have hend : i * ENTRY_LEN + ENTRY_LEN ≤ page.entries.length * ENTRY_LEN := by
    rw [← Nat.succ_mul]
    exact Nat.mul_le_mul_right _ hlt
  unfold decodeEntry
  dsimp only
  rw [require_bind (by rw [hlen]; omega)]
  -- the entry's bytes stand at its place
  have hall : ∀ b ∈ page.entries.map encodeEntry, b.length = ENTRY_LEN := by
    intro b hb
    obtain ⟨x, -, rfl⟩ := mem_map.mp hb
    exact encodeEntry_length x
  have hblock : slice (encodeChainPage pageSize page) (PAGE_HEADER_LEN + i * ENTRY_LEN) ENTRY_LEN
      = encodeEntry e := by
    unfold encodeChainPage
    rw [← encodeChainHeader_length page, slice_append_right,
      slice_append_left (by rw [encodedEntries_length]; exact hend)]
    refine slice_block hall ?_
    rw [getElem?_map, hi]
    rfl
  have hfirst : slice (encodeChainPage pageSize page) (PAGE_HEADER_LEN + i * ENTRY_LEN) 8
      = leBytes 8 e.1 := by
    rw [← Nat.add_zero (PAGE_HEADER_LEN + i * ENTRY_LEN),
      ← slice_slice (show 0 + 8 ≤ ENTRY_LEN by decide), hblock]
    exact @slice_mid _ [] _ _ 0 8 rfl (leBytes_length 8 _)
  have hsecond : slice (encodeChainPage pageSize page) (PAGE_HEADER_LEN + i * ENTRY_LEN + 8) 8
      = leBytes 8 e.2 := by
    rw [← slice_slice (show 8 + 8 ≤ ENTRY_LEN by decide), hblock]
    unfold encodeEntry
    rw [← append_nil (leBytes 8 e.2)]
    exact slice_mid (leBytes_length 8 _) (leBytes_length 8 _)
  obtain ⟨hcid, hpid⟩ := h.entries e (mem_of_getElem? hi)
  rw [hfirst, hsecond, ofLeBytes_u64 hcid, ofLeBytes_u64 hpid]
  rfl

/-- **A page that fits is read back as it was written.** -/
theorem decodeChainPage_encode :
    decodeChainPage (encodeChainPage pageSize page) = .ok page := by
  unfold decodeChainPage
  rw [ok_bind (decodeChainHeader_encode h hsize)]
  dsimp only
  have hentries : (List.range page.entries.length).mapM (decodeEntry (encodeChainPage pageSize page))
      = .ok ((List.range page.entries.length).map fun i => page.entries.getD i (0, 0)) := by
    refine mapM_eq_ok fun i hi => ?_
    have hlt := mem_range.mp hi
    rw [getD_eq_getElem _ _ hlt]
    exact decodeEntry_encode h hsize (getElem?_eq_getElem hlt)
  have hsame : ((List.range page.entries.length).map fun i => page.entries.getD i (0, 0))
      = page.entries := by
    refine ext_getElem (by simp) fun i hi hi' => ?_
    rw [getElem_map, getElem_range, getD_eq_getElem _ _ hi']
  rw [ok_bind hentries, hsame]
  rfl

end RoundTrip

end Pagedb
