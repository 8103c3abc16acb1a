/-
  Pagedb.BTree.InternalCodec — encoded internal nodes (`btree/internal.rs`,
  `cow_internal_repointing_child` in `btree/tree/core.rs`).

  An internal node is routed in place (`InternalAccessor::child_for`), and one of
  its links is changed by a write into a copy of the body.

    * `Internal.agrees_iff_of_valid` — when the accessor shows what the decoder
      returns, on every accepted body;
    * `Internal.encode_eq`        — the encoding is a slotted page;
    * `repointBody_page`          — the patched body is the page of the changed node;
    * `validated_bodies_read_in_place` — when an accepted body is read without a
      panic.
-/
import Pagedb.BTree.LeafCodec
import Pagedb.BTree.Stable

namespace Pagedb

open Lib List

/-! ## §1. The codec -/

/-- The body of the decoder's loop: the entry at an offset. -/
def decodeInternalRecord (body : Bytes) (off : Nat) : Except NodeError (Bytes × PageId) := do
  let keyLen ← readU16Le body off
  let key ← bodyRange body (off + 2) (off + 2 + keyLen)
  let rightChild ← readU64Le body (off + 2 + keyLen)
  pure (key, rightChild)

/-- `Internal::decode`. -/
def Internal.decode (body : Bytes) : Except NodeError Internal := do
  let h ← validateNodeBody body
  require (h.kind = .internal) (.kindMismatch "internal" "leaf")
  let entries ← (List.range h.slotCount).mapM fun i => do
    let off ← slotOffset body h.prefixLen i
    decodeInternalRecord body off
  pure { leftmostChild := h.dualUse, entries }

/-- The size of an entry's record. -/
def internalRecordSize (e : Bytes × PageId) : Nat := e.1.length + SEPARATOR_RECORD_OVERHEAD

/-- The body of the encoder's loop, up to the slot. -/
def writeInternalRecord (body : Bytes) (off : Nat) (e : Bytes × PageId) :
    Except NodeError Bytes := do
  let keyLen ← tryU16 e.1.length "key_len overflow"
  let body ← writeU16Le body off keyLen
  let body ← writeBytes body (off + 2) e.1
  writeBytes body (off + 2 + e.1.length) (leBytes 8 e.2)

/-- `Internal::encode`, into a buffer that is given. -/
def Internal.encode (node : Internal) (body : Bytes) : Except NodeError Bytes := do
  let cap := body.length
  let prefixLen := 0
  let slotCount := node.entries.length
  let recordBytes := (node.entries.map internalRecordSize).sum
  require (HEADER_LEN + prefixLen + slotCount * SLOT_DIRECTORY_ENTRY_SIZE + recordBytes ≤ cap)
    .payloadTooLarge
  let slots ← tryU16 slotCount "slot_count overflow"
  let len ← tryU16 prefixLen "prefix_len overflow"
  let body ← writeHeader body .internal slots len 0 node.leftmostChild
  let body ← writeBytes body HEADER_LEN (List.replicate (cap - HEADER_LEN) 0)
  encodeRecords internalRecordSize writeInternalRecord prefixLen node.entries 0 cap body

/-! ## §2. The accessor -/

/-- `InternalAccessor`. -/
structure InternalAccessor where
  body : Bytes
  slotCount : Nat
  leftmostChild : PageId
  deriving DecidableEq, Repr

namespace InternalAccessor

/-- `InternalAccessor::from_header`.  `debug` is set in a build with debug assertions. -/
def fromHeader (debug : Bool) (body : Bytes) (h : NodeHeader) :
    Except NodeError InternalAccessor := do
  require (h.kind = .internal) (.kindMismatch "internal" "leaf")
  require (debug = true → h.prefixLen = 0) .panic
  pure { body, slotCount := h.slotCount, leftmostChild := h.dualUse }

/-- `InternalAccessor::from_guard`. -/
def fromGuard (debug : Bool) (body : Bytes) (memo : Bool) : Except NodeError InternalAccessor := do
  let (h, _) ← validateNodeBodyMemoised body memo
  fromHeader debug body h

/-- `InternalAccessor::entry_key`. -/
def entryKey (acc : InternalAccessor) (idx : Nat) : Except NodeError Bytes := do
  let off ← slotOffset acc.body 0 idx
  let keyLen ← readU16Le acc.body off
  bodyRange acc.body (off + 2) (off + 2 + keyLen)

/-- `InternalAccessor::right_child_offset`. -/
def rightChildOffset (acc : InternalAccessor) (idx : Nat) : Except NodeError Nat := do
  let off ← slotOffset acc.body 0 idx
  let keyLen ← readU16Le acc.body off
  pure (off + 2 + keyLen)

/-- `InternalAccessor::right_child_at`, and `entry_right_child`. -/
def rightChildAt (acc : InternalAccessor) (idx : Nat) : Except NodeError PageId := do
  let offset ← acc.rightChildOffset idx
  readU64Le acc.body offset

/-- The loop of `child_for`, with the turns it may take. -/
def partitionFrom (acc : InternalAccessor) (query : Bytes) : Nat → Nat → Nat → Except NodeError Nat
  | 0, lo, _ => .ok lo
  | turns + 1, lo, hi =>
    if lo < hi then do
      let mid := lo + (hi - lo) / 2
      let key ← acc.entryKey mid
      if key ≤ query then acc.partitionFrom query turns (mid + 1) hi
      else acc.partitionFrom query turns lo mid
    else .ok lo

/-- `InternalAccessor::child_for`.  The interval shrinks at every turn. -/
def childFor (acc : InternalAccessor) (query : Bytes) : Except NodeError PageId := do
  let lo ← acc.partitionFrom query acc.slotCount 0 acc.slotCount
  if lo = 0 then pure acc.leftmostChild else acc.rightChildAt (lo - 1)

/-- The first of the slots that links to a page. -/
def findChild (acc : InternalAccessor) (child : PageId) : List Nat → Except NodeError (Option Nat)
  | [] => .ok none
  | idx :: slots => do
    let right ← acc.rightChildAt idx
    if right = child then pure (some idx) else acc.findChild child slots

end InternalAccessor

/-- `cow_internal_repointing_child`, from the body it reads to the one it writes. -/
def repointBody (debug : Bool) (body : Bytes) (memo : Bool) (childOld childNew : PageId) :
    Except NodeError Bytes := do
  let acc ← InternalAccessor.fromGuard debug body memo
  if acc.leftmostChild = childOld then
    writeU64Le body OFF_DUAL_USE childNew
  else
    match ← acc.findChild childOld (List.range acc.slotCount) with
    | some idx => do
      let offset ← acc.rightChildOffset idx
      writeU64Le body offset childNew
    | none => pure body

/-! ## §3. The accessor and the decoder -/

/-- The accessor shows the node, slot by slot. -/
structure InternalAccessor.Agrees (acc : InternalAccessor) (node : Internal) : Prop where
  count : acc.slotCount = node.entries.length
  leftmost : acc.leftmostChild = node.leftmostChild
  shows : ∀ i e, node.entries[i]? = some e → acc.entryKey i = .ok e.1 ∧ acc.rightChildAt i = .ok e.2

section Agreement

variable {acc : InternalAccessor} {node : Internal} {body : Bytes}

theorem InternalAccessor.Agrees.partitionFrom (h : acc.Agrees node) (query : Bytes) (turns : Nat) :
    ∀ lo hi, hi ≤ node.entries.length → acc.partitionFrom query turns lo hi
      = .ok (partitionPoint (fun i => (node.entries[i]?).any fun e => decide (e.1 ≤ query))
          turns lo hi) := by
  induction turns with
  | zero =>
    intro lo hi _
    rfl
  | succ turns ih =>
    intro lo hi hhi
    unfold InternalAccessor.partitionFrom partitionPoint
    by_cases hlt : lo < hi
    · rw [if_pos hlt, if_pos hlt]
      dsimp only
      have hmid : lo + (hi - lo) / 2 < node.entries.length := by omega
      have he := getElem?_eq_getElem hmid
      rw [ok_bind (h.shows _ _ he).1, he, Option.any_some]
      by_cases hle : node.entries[lo + (hi - lo) / 2].1 ≤ query
      · rw [if_pos hle, if_pos (decide_eq_true hle)]
        exact ih _ _ hhi
      · rw [if_neg hle, if_neg (by simpa using hle)]
        exact ih _ _ (by omega)
    · rw [if_neg hlt, if_neg hlt]

/-- **A node is routed in place as it is when decoded.** -/
theorem InternalAccessor.Agrees.childFor (h : acc.Agrees node) (query : Bytes) :
    acc.childFor query = .ok (node.childFor query) := by
  unfold InternalAccessor.childFor Internal.childFor
  rw [h.count, ok_bind (h.partitionFrom query _ _ _ (le_refl _))]
  dsimp only
  have hbound : partitionPoint (fun i => (node.entries[i]?).any fun e => decide (e.1 ≤ query))
      node.entries.length 0 node.entries.length ≤ node.entries.length :=
    partitionPoint_le _ (Nat.zero_le _)
  generalize partitionPoint _ node.entries.length 0 node.entries.length = lo at hbound ⊢
  split_ifs with hzero
  · rw [h.leftmost]
    rfl
  · have hle : lo - 1 < node.entries.length := by omega
    have he := getElem?_eq_getElem hle
    rw [(h.shows _ _ he).2, he]
    rfl

/-- The entry at a slot of the directory that stands `prefixLen` bytes behind the
    header.  The decoder reads it behind the prefix, the accessor always at zero. -/
def internalEntryAt (body : Bytes) (prefixLen i : Nat) : Except NodeError (Bytes × PageId) := do
  let off ← slotOffset body prefixLen i
  decodeInternalRecord body off

/-- What stands directly behind the header, read as a directory, leads to the same
    entries as the directory behind the prefix. -/
def NodeHeader.SameDirectory (h : NodeHeader) (body : Bytes) : Prop :=
  ∀ i < h.slotCount, internalEntryAt body 0 i = internalEntryAt body h.prefixLen i

theorem InternalAccessor.shows_iff {i : Nat} {e : Bytes × PageId} :
    acc.entryKey i = .ok e.1 ∧ acc.rightChildAt i = .ok e.2
      ↔ internalEntryAt acc.body 0 i = .ok e := by
  unfold internalEntryAt decodeInternalRecord InternalAccessor.entryKey
    InternalAccessor.rightChildAt InternalAccessor.rightChildOffset
  constructor
  · rintro ⟨hkey, hchild⟩
    obtain ⟨off, hslot, hkey⟩ := except_bind_eq_ok.mp hkey
    obtain ⟨keyLen, hlen, hkey⟩ := except_bind_eq_ok.mp hkey
    rw [ok_bind hslot, ok_bind hlen] at hchild
    have hchild : readU64Le acc.body (off + 2 + keyLen) = .ok e.2 := hchild
    rw [ok_bind hslot, ok_bind hlen, ok_bind hkey, ok_bind hchild]
    rfl
  · intro h
    obtain ⟨off, hslot, h⟩ := except_bind_eq_ok.mp h
    obtain ⟨keyLen, hlen, h⟩ := except_bind_eq_ok.mp h
    obtain ⟨key, hkey, h⟩ := except_bind_eq_ok.mp h
    obtain ⟨child, hchild, h⟩ := except_bind_eq_ok.mp h
    obtain rfl := Except.ok.inj h
    rw [ok_bind hslot, ok_bind hlen, ok_bind hslot, ok_bind hlen]
    exact ⟨hkey, hchild⟩

theorem decodeInternalRecord_of_in {off keyLen : Nat} (hin : InternalRecordIn body off keyLen) :
    ∃ e, decodeInternalRecord body off = .ok e := by
  have hlen := hin.inside
  have hkey : bodyRange body (off + 2) (off + 2 + keyLen) = .ok (slice body (off + 2) keyLen) :=
    bodyRange_eq (by omega)
  have hchild : readU64Le body (off + 2 + keyLen) = _ := readLe_eq (by omega)
  unfold decodeInternalRecord
  rw [ok_bind hin.key, ok_bind hkey, ok_bind hchild]
  exact ⟨_, rfl⟩

variable {h : NodeHeader} (hvalid : validateNodeBody body = .ok h) (hkind : h.kind = .internal)

include hvalid hkind

/-- **An accepted internal body decodes, and the accessor shows what the decoder returns
    exactly when it reads the same directory.** -/
theorem Internal.agrees_iff_of_valid :
    ∃ node, Internal.decode body = .ok node
      ∧ (InternalAccessor.Agrees ⟨body, h.slotCount, h.dualUse⟩ node ↔ h.SameDirectory body) := by
  obtain ⟨-, -, hslots⟩ := validateNodeBody_eq_ok.mp hvalid
  have hone : ∀ i ∈ List.range h.slotCount, ∃ e, internalEntryAt body h.prefixLen i = .ok e := by
    intro i hi
    obtain ⟨off, hslot, hcheck⟩ := hslots i (mem_range.mp hi)
    rw [hkind] at hcheck
    obtain ⟨keyLen, hin⟩ := validateInternalRecord_eq_ok.mp hcheck
    unfold internalEntryAt
    rw [ok_bind hslot]
    exact decodeInternalRecord_of_in hin
  obtain ⟨entries, hentries⟩ := exists_mapM hone
  obtain ⟨hcount, hall⟩ := mapM_range_eq_ok.mp hentries
  refine ⟨⟨h.dualUse, entries⟩, ?_, fun hagrees i hi => ?_, fun hsame =>
    ⟨hcount.symm, rfl, fun i e he => ?_⟩⟩
  · unfold Internal.decode
    rw [ok_bind hvalid, require_bind hkind]
    exact ok_bind hentries
  · have he : entries[i]? = some _ := getElem?_eq_getElem (by omega)
    rw [hall i _ he]
    exact InternalAccessor.shows_iff.mp (hagrees.shows i _ he)
  · have hi : i < h.slotCount := by
      rw [← hcount]
      exact (List.getElem?_eq_some_iff.mp he).1
    refine InternalAccessor.shows_iff.mpr ?_
    rw [← hall i e he]
    exact hsame i hi

theorem Internal.decode_of_valid (hpre : h.prefixLen = 0) :
    ∃ node, Internal.decode body = .ok node
      ∧ InternalAccessor.Agrees ⟨body, h.slotCount, h.dualUse⟩ node := by
  obtain ⟨node, hdecode, hagrees⟩ := Internal.agrees_iff_of_valid hvalid hkind
  exact ⟨node, hdecode, hagrees.mpr fun i _ => by rw [hpre]⟩

theorem InternalAccessor.fromGuard_eq_ok (debug memo : Bool) :
    InternalAccessor.fromGuard debug body memo = .ok acc
      ↔ (debug = true → h.prefixLen = 0) ∧ ⟨body, h.slotCount, h.dualUse⟩ = acc := by
  unfold InternalAccessor.fromGuard
  rw [ok_bind (validateNodeBodyMemoised_eq hvalid memo)]
  dsimp only
  unfold InternalAccessor.fromHeader
  rw [require_bind hkind, require_bind_eq_ok]
  exact and_congr_right fun _ => ⟨Except.ok.inj, congrArg Except.ok⟩

theorem InternalAccessor.fromGuard_eq (hpre : h.prefixLen = 0) (debug memo : Bool) :
    InternalAccessor.fromGuard debug body memo = .ok ⟨body, h.slotCount, h.dualUse⟩ :=
  (InternalAccessor.fromGuard_eq_ok hvalid hkind debug memo).mpr ⟨fun _ => hpre, rfl⟩

end Agreement

/-! ## §4. The encoding -/

/-- The bytes of an entry. -/
def internalRecordBytes (e : Bytes × PageId) : Bytes :=
  leBytes 2 e.1.length ++ (e.1 ++ leBytes 8 e.2)

@[simp] theorem internalRecordBytes_length (e : Bytes × PageId) :
    (internalRecordBytes e).length = internalRecordSize e := by
  unfold internalRecordBytes internalRecordSize SEPARATOR_RECORD_OVERHEAD
  simp only [length_append, leBytes_length]
  omega

theorem writeInternalRecord_eq {e : Bytes × PageId} (hsize : internalRecordSize e ≤ U16_MAX)
    (body : Bytes) (off : Nat) :
    writeInternalRecord body off e = writeBytes body off (internalRecordBytes e) := by
  unfold internalRecordSize SEPARATOR_RECORD_OVERHEAD at hsize
  unfold writeInternalRecord writeU16Le
  rw [ok_bind (tryU16_eq (by omega)), writeBytes_append, writeBytes_last]
  · unfold internalRecordBytes
    rw [append_assoc]
  · simp only [length_append, leBytes_length]
    omega
  · rw [leBytes_length]

/-- The header of an encoded node. -/
def Internal.header (node : Internal) : NodeHeader where
  kind := .internal
  slotCount := node.entries.length
  prefixLen := 0
  leftSibling := 0
  dualUse := node.leftmostChild

/-- The encoded node, as a slotted page. -/
def Internal.page (node : Internal) (cap : Nat) : Bytes :=
  slotted cap (node.header.bytes ++ []) (node.entries.map internalRecordBytes)

/-- The children are of their type. -/
def Internal.Sized (node : Internal) : Prop := ∀ child ∈ node.children, child ≤ U64_MAX

/-- What the encoder needs, as it computes it. -/
def Internal.needed (node : Internal) : Nat :=
  HEADER_LEN + node.entries.length * 2 + (node.entries.map internalRecordSize).sum

section Encoding

variable {node : Internal} {cap : Nat} {buffer : Bytes}

theorem Internal.fits_iff_needed (node : Internal) (pageSize : Nat) :
    node.fits pageSize = true ↔ node.needed ≤ bodyCapacity pageSize := by
  have hsizes : (node.entries.map fun e => 2 + e.1.length + 8) = node.entries.map internalRecordSize := by
    refine map_congr_left fun e _ => ?_
    unfold internalRecordSize SEPARATOR_RECORD_OVERHEAD
    omega
  unfold Internal.fits Internal.needed
  rw [hsizes, decide_eq_true_iff]

theorem Internal.slottedFits (hfits : node.needed ≤ cap) :
    SlottedFits cap (node.header.bytes ++ []) (node.entries.map internalRecordBytes) := by
  have hsizes : (List.length ∘ internalRecordBytes) = internalRecordSize :=
    funext internalRecordBytes_length
  unfold Internal.needed at hfits
  unfold SlottedFits
  rw [append_nil, NodeHeader.bytes_length, length_map, length_flatten, map_map, hsizes]
  omega

theorem Internal.recordSize_le (hcap : cap ≤ U16_MAX) (hfits : node.needed ≤ cap) :
    ∀ e ∈ node.entries, internalRecordSize e ≤ U16_MAX := by
  intro e he
  have hone : internalRecordSize e ≤ (node.entries.map internalRecordSize).sum :=
    le_sum_of_mem (mem_map_of_mem he)
  unfold Internal.needed at hfits
  omega

/-- **A node that fits is encoded as a slotted page.** -/
theorem Internal.encode_eq (hcap : buffer.length ≤ U16_MAX) (hfits : node.needed ≤ buffer.length) :
    node.encode buffer = .ok (node.page buffer.length) := by
  have hslotted := Internal.slottedFits hfits
  have hsize := Internal.recordSize_le hcap hfits
  unfold Internal.needed at hfits
  unfold Internal.encode
  dsimp only
  rw [require_bind (by unfold SLOT_DIRECTORY_ENTRY_SIZE; omega),
    ok_bind (tryU16_eq (by omega)), ok_bind (tryU16_eq (Nat.zero_le _))]
  have hlen : HEADER_LEN ≤ buffer.length := by omega
  refine (writeHeader_zeros node.header hlen _).trans ?_
  rw [← append_nil node.header.bytes]
  refine encodeRecords_eq ?_ hcap node.entries []
    (fun e _ => (internalRecordBytes_length e).symm) (fun e he body off => ?_) hslotted
  · rw [append_nil, NodeHeader.bytes_length, Nat.add_zero]
  · exact writeInternalRecord_eq (hsize e he) body off

/-- An entry that was written lies inside the body and is decoded. -/
theorem decodeInternalRecord_of_hasAt {body : Bytes} {off : Nat} {e : Bytes × PageId}
    (hsize : internalRecordSize e ≤ U16_MAX) (hchild : e.2 ≤ U64_MAX)
    (hpage : HasAt body off (internalRecordBytes e)) :
    validateInternalRecord body off = .ok () ∧ decodeInternalRecord body off = .ok e := by
  have hinside := hpage.inside
  unfold internalRecordSize SEPARATOR_RECORD_OVERHEAD at hsize
  rw [internalRecordBytes_length] at hinside
  unfold internalRecordSize SEPARATOR_RECORD_OVERHEAD at hinside
  unfold internalRecordBytes at hpage
  have hlen : readU16Le body off = .ok e.1.length := readU16Le_of_hasAt hpage.left (by omega)
  have hrest := hpage.right
  rw [leBytes_length] at hrest
  have hkey := bodyRange_of_hasAt hrest.left
  have hright : readU64Le body (off + 2 + e.1.length) = .ok e.2 :=
    readU64Le_of_hasAt hrest.right hchild
  refine ⟨validateInternalRecord_eq_ok.mpr ⟨_, hlen, by omega⟩, ?_⟩
  unfold decodeInternalRecord
  rw [ok_bind hlen, ok_bind hkey, ok_bind hright]
  rfl

theorem Internal.header_sized (hsized : node.Sized) (hcap : cap ≤ U16_MAX)
    (hfits : node.needed ≤ cap) : node.header.Sized where
  slotCount := by
    show node.entries.length ≤ U16_MAX
    unfold Internal.needed at hfits
    omega
  prefixLen := Nat.zero_le _
  leftSibling := Nat.zero_le _
  dualUse := hsized _ mem_cons_self

/-- **The page of a node is accepted, and decodes to the node.** -/
theorem Internal.decode_page (hsized : node.Sized) (hcap : cap ≤ U16_MAX)
    (hfits : node.needed ≤ cap) :
    validateNodeBody (node.page cap) = .ok node.header
      ∧ Internal.decode (node.page cap) = .ok node := by
  have hslotted := Internal.slottedFits hfits
  have hlen : (node.page cap).length = cap := slotted_length hslotted
  -- each slot leads to its entry
  have hslot : ∀ i e, node.entries[i]? = some e → ∃ off, slotOffset (node.page cap) 0 i = .ok off
        ∧ validateInternalRecord (node.page cap) off = .ok ()
        ∧ decodeInternalRecord (node.page cap) off = .ok e := by
    intro i e he
    have hmem := mem_of_getElem? he
    have hrecord : (node.entries.map internalRecordBytes)[i]? = some (internalRecordBytes e) := by
      rw [getElem?_map, he]
      rfl
    obtain ⟨off, hoff, hat⟩ := slotOffset_slotted hcap hslotted hrecord
    have hchild : e.2 ≤ U64_MAX := hsized _ (mem_cons_of_mem _ (mem_map_of_mem hmem))
    exact ⟨off, hoff,
      decodeInternalRecord_of_hasAt (Internal.recordSize_le hcap hfits e hmem) hchild hat⟩
  have hvalid : validateNodeBody (node.page cap) = .ok node.header := by
    refine validateNodeBody_eq_ok.mpr ⟨?_, ?_, fun i hi => ?_⟩
    · exact readHeader_of_hasAt (Internal.header_sized hsized hcap hfits) (hasAt_header _ _ _ _)
    · rw [hlen]
      show HEADER_LEN + 0 + node.entries.length * 2 ≤ cap
      unfold Internal.needed at hfits
      omega
    · obtain ⟨off, hoff, hcheck, -⟩ := hslot i _ (getElem?_eq_getElem hi)
      exact ⟨off, hoff, hcheck⟩
  have hentries : (List.range node.entries.length).mapM (fun i => do
      let off ← slotOffset (node.page cap) 0 i
      decodeInternalRecord (node.page cap) off) = .ok node.entries := by
    refine mapM_range_eq_ok.mpr ⟨rfl, fun i e he => ?_⟩
    obtain ⟨off, hoff, -, hdecode⟩ := hslot i e he
    rw [ok_bind hoff, hdecode]
  refine ⟨hvalid, ?_⟩
  unfold Internal.decode
  rw [ok_bind hvalid, require_bind (show node.header.kind = .internal from rfl)]
  exact ok_bind hentries

end Encoding

/-! ## §5. The patch -/

section Patch

variable {acc : InternalAccessor} {node : Internal} {cap : Nat} {old new : PageId}

theorem InternalAccessor.findChild_skip {slots more : List Nat}
    (h : ∀ i ∈ slots, ∃ right, acc.rightChildAt i = .ok right ∧ right ≠ old) :
    acc.findChild old (slots ++ more) = acc.findChild old more := by
  induction slots with
  | nil => rfl
  | cons i slots ih =>
    obtain ⟨right, hright, hne⟩ := h i mem_cons_self
    show (acc.rightChildAt i >>= fun right => if right = old then pure (some i)
      else acc.findChild old (slots ++ more)) = _
    rw [ok_bind hright, if_neg hne]
    exact ih fun j hj => h j (mem_cons_of_mem i hj)

/-- No entry links to the page, or one does first. -/
theorem exists_first_link (old : PageId) (entries : List (Bytes × PageId)) :
    (∀ e ∈ entries, e.2 ≠ old) ∨ ∃ done key rest, entries = done ++ (key, old) :: rest
      ∧ ∀ e ∈ done, e.2 ≠ old := by
  induction entries with
  | nil => exact Or.inl nofun
  | cons e entries ih =>
    by_cases he : e.2 = old
    · refine Or.inr ⟨[], e.1, entries, ?_, nofun⟩
      rw [← he]
      rfl
    · rcases ih with hnone | ⟨done, key, rest, rfl, hdone⟩
      · exact Or.inl fun x hx => (mem_cons.mp hx).elim (fun h => h ▸ he) (hnone x)
      · refine Or.inr ⟨e :: done, key, rest, rfl, fun x hx => ?_⟩
        exact (mem_cons.mp hx).elim (fun h => h ▸ he) (hdone x)

theorem repointEntries_none {entries : List (Bytes × PageId)} (h : ∀ e ∈ entries, e.2 ≠ old) :
    repointEntries old new entries = entries := by
  induction entries with
  | nil => rfl
  | cons e entries ih =>
    unfold repointEntries
    rw [if_neg (h e mem_cons_self), ih fun x hx => h x (mem_cons_of_mem e hx)]

/-- The accessor finds the first link to the page. -/
theorem InternalAccessor.Agrees.findChild (h : acc.Agrees node) {done rest : List (Bytes × PageId)}
    {key : Bytes} (hentries : node.entries = done ++ (key, old) :: rest)
    (hdone : ∀ e ∈ done, e.2 ≠ old) :
    acc.findChild old (List.range acc.slotCount) = .ok (some done.length) := by
  have hrange : List.range acc.slotCount = List.range done.length
      ++ (done.length :: (List.range rest.length).map (done.length + 1 + ·)) := by
    rw [h.count, hentries, length_append, length_cons, ← Nat.add_assoc,
      Nat.add_right_comm, range_add, range_succ, append_assoc]
    rfl
  rw [hrange, InternalAccessor.findChild_skip]
  · unfold InternalAccessor.findChild
    have hslot : node.entries[done.length]? = some (key, old) := by
      rw [hentries]
      simp
    rw [ok_bind (h.shows _ _ hslot).2, if_pos rfl]
    rfl
  · intro i hi
    have hlt := mem_range.mp hi
    have hslot : node.entries[i]? = some done[i] := by
      rw [hentries, getElem?_append_left hlt, getElem?_eq_getElem hlt]
    exact ⟨_, (h.shows _ _ hslot).2, hdone _ (getElem_mem hlt)⟩

theorem InternalAccessor.Agrees.findChild_none (h : acc.Agrees node)
    (hnone : ∀ e ∈ node.entries, e.2 ≠ old) :
    acc.findChild old (List.range acc.slotCount) = .ok none := by
  have hskip : acc.findChild old (List.range acc.slotCount ++ []) = acc.findChild old [] := by
    refine InternalAccessor.findChild_skip fun i hi => ?_
    have hlt : i < node.entries.length := by
      rw [← h.count]
      exact mem_range.mp hi
    exact ⟨_, (h.shows _ _ (getElem?_eq_getElem hlt)).2, hnone _ (getElem_mem hlt)⟩
  rwa [append_nil] at hskip

/-- A write of a link changes that link only. -/
theorem writeRightChild_slotted {h : NodeHeader} {done rest : List Bytes} {key : Bytes}
    (acc : InternalAccessor) (new : PageId) (hcap : cap ≤ U16_MAX)
    (hsize : internalRecordSize (key, old) ≤ U16_MAX)
    (hfits : SlottedFits cap (h.bytes ++ []) (done ++ internalRecordBytes (key, old) :: rest))
    (hbody : acc.body
      = slotted cap (h.bytes ++ []) (done ++ internalRecordBytes (key, old) :: rest)) :
    (acc.rightChildOffset done.length >>= fun offset => writeU64Le acc.body offset new)
      = .ok (slotted cap (h.bytes ++ []) (done ++ internalRecordBytes (key, new) :: rest)) := by
  have hrecord := slotted_record hfits
  have hsizes := internalRecordBytes_length (key, old)
  have hinside := hrecord.inside
  unfold internalRecordSize SEPARATOR_RECORD_OVERHEAD at hsizes hsize
  dsimp only at hsizes hsize
  rw [← hbody] at hrecord hinside
  have hslot : slotOffset acc.body 0 done.length
      = .ok (cap - done.flatten.length - (internalRecordBytes (key, old)).length) := by
    rw [hbody]
    exact slotOffset_cut hcap done rest _
  have hlen : readU16Le acc.body (cap - done.flatten.length
      - (internalRecordBytes (key, old)).length) = .ok key.length := by
    exact readU16Le_of_hasAt hrecord.left (by omega)
  have hoffset : acc.rightChildOffset done.length = .ok (cap - done.flatten.length
      - (internalRecordBytes (key, old)).length + 2 + key.length) := by
    unfold InternalAccessor.rightChildOffset
    rw [ok_bind hslot, ok_bind hlen]
    rfl
  unfold writeU64Le
  rw [ok_bind hoffset, writeBytes_eq (by rw [leBytes_length]; omega), hbody]
  -- the record ends with the link
  have hsplit : ∀ child, internalRecordBytes (key, child)
      = (leBytes 2 key.length ++ key) ++ (leBytes 8 child ++ []) := by
    intro child
    unfold internalRecordBytes
    rw [append_nil, append_assoc]
  have hwidth : (leBytes 8 new).length = (leBytes 8 old).length := by
    rw [leBytes_length, leBytes_length]
  rw [hsplit old] at hfits
  have hpatch := slotted_patch hwidth hfits
  rw [← hsplit old, ← hsplit new, length_append, leBytes_length, ← Nat.add_assoc] at hpatch
  rw [hpatch]

/-- **The patched body is the page of the changed node.** -/
theorem repointBody_page (hsized : node.Sized) (hcap : cap ≤ U16_MAX) (hfits : node.needed ≤ cap)
    (debug memo : Bool) (old new : PageId) :
    repointBody debug (node.page cap) memo old new = .ok ((node.repoint old new).page cap) := by
  obtain ⟨hvalid, hdecode⟩ := Internal.decode_page hsized hcap hfits
  have hlen : (node.page cap).length = cap := slotted_length (Internal.slottedFits hfits)
  obtain ⟨node', hnode', hagrees⟩ := Internal.decode_of_valid hvalid rfl rfl
  rw [hdecode] at hnode'
  obtain rfl := Except.ok.inj hnode'
  unfold repointBody
  rw [ok_bind (InternalAccessor.fromGuard_eq hvalid rfl rfl debug memo)]
  unfold Internal.repoint
  by_cases hfirst : node.leftmostChild = old
  · rw [if_pos (show node.header.dualUse = old from hfirst), if_pos hfirst]
    have hroom : OFF_DUAL_USE + (leBytes 8 new).length ≤ (node.page cap).length := by
      rw [hlen, leBytes_length]
      unfold Internal.needed HEADER_LEN at hfits
      unfold OFF_DUAL_USE
      omega
    unfold writeU64Le
    rw [writeBytes_eq hroom]
    exact congrArg Except.ok (writeDualUse_slotted node.header new cap [] _)
  · rw [if_neg (show ¬ node.header.dualUse = old from hfirst), if_neg hfirst]
    rcases exists_first_link old node.entries with hnone | ⟨done, key, rest, hentries, hdone⟩
    · rw [ok_bind (hagrees.findChild_none hnone), repointEntries_none hnone]
      rfl
    · rw [ok_bind (hagrees.findChild hentries hdone), hentries, repointEntries_append done hdone]
      dsimp only
      have hmem : (key, old) ∈ node.entries := by
        rw [hentries]
        exact mem_append_right _ mem_cons_self
      have hfits' := Internal.slottedFits hfits
      rw [hentries, map_append, map_cons] at hfits'
      have hbefore : node.page cap = slotted cap (node.header.bytes ++ [])
          (done.map internalRecordBytes ++ internalRecordBytes (key, old)
            :: rest.map internalRecordBytes) := by
        unfold Internal.page
        rw [hentries, map_append, map_cons]
      have hsize := Internal.recordSize_le hcap hfits _ hmem
      have hpatch := writeRightChild_slotted
        ⟨node.page cap, node.header.slotCount, node.header.dualUse⟩ new hcap hsize hfits' hbefore
      have hcount : (done ++ (key, new) :: rest).length = node.entries.length := by
        rw [hentries]
        simp
      have hafter : Internal.page ⟨node.leftmostChild, done ++ (key, new) :: rest⟩ cap
          = slotted cap (node.header.bytes ++ []) (done.map internalRecordBytes
            ++ internalRecordBytes (key, new) :: rest.map internalRecordBytes) := by
        unfold Internal.page Internal.header
        rw [map_append, map_cons]
        dsimp only
        rw [hcount]
      rw [hafter]
      rw [length_map] at hpatch
      exact hpatch

end Patch

/-! ## §6. Codec, routing and patch together -/

/-- The reference rule: the child of the last separator that is not above the key,
    else the leftmost. -/
def Internal.routed (node : Internal) (key : Bytes) : PageId :=
  ((node.entries.filter fun e => decide (e.1 ≤ key)).getLast?).elim node.leftmostChild Prod.snd

section Routing

variable {node : Internal}

/-- Up to a key, ascending entries are a first part. -/
theorem filter_upTo {entries : List (Bytes × PageId)} (hasc : Ascending entries) (key : Bytes) :
    entries.filter (fun e => decide (e.1 ≤ key)) = entries.takeWhile (upTo key) := by
  induction entries with
  | nil => rfl
  | cons e entries ih =>
    obtain ⟨habove, hrest⟩ := pairwise_cons.mp hasc
    rw [filter_cons, takeWhile_cons]
    by_cases he : e.1 ≤ key
    · have hyes : upTo key e = true := decide_eq_true he
      rw [if_pos (decide_eq_true he), if_pos hyes, ih hrest]
    · have hno : ¬ upTo key e = true := fun h => he (of_decide_eq_true h)
      rw [if_neg (by simpa using he), if_neg hno]
      refine filter_eq_nil_iff.mpr fun x hx hle => he ?_
      exact (habove x hx).le.trans (of_decide_eq_true hle)

theorem Internal.childFor_eq_routed (hasc : Ascending node.entries) (key : Bytes) :
    node.childFor key = node.routed key := by
  rw [Internal.childFor_eq key hasc]
  unfold Internal.routed Lib.childFor
  rw [filter_upTo hasc]
  cases (node.entries.takeWhile (upTo key)).getLast? <;> rfl

/-- The links of a changed node: the first that named the page names the other. -/
theorem Internal.repoint_children (node : Internal) (old new : PageId) :
    (node.repoint old new).children = node.children.replace old new := by
  have hentries : ∀ entries : List (Bytes × PageId),
      (repointEntries old new entries).map Prod.snd = (entries.map Prod.snd).replace old new := by
    intro entries
    induction entries with
    | nil => rfl
    | cons e entries ih =>
      unfold repointEntries
      rw [map_cons, replace_cons]
      split_ifs with he
      · rw [beq_iff_eq.mpr he.symm]
        rfl
      · rw [beq_eq_false_iff_ne.mpr (Ne.symm he), map_cons, ih]
  unfold Internal.repoint Internal.children
  rw [replace_cons]
  split_ifs with hfirst
  · rw [beq_iff_eq.mpr hfirst.symm]
  · rw [beq_eq_false_iff_ne.mpr (Ne.symm hfirst)]
    dsimp only
    rw [hentries]

theorem Internal.repoint_needed (node : Internal) (old new : PageId) :
    (node.repoint old new).needed = node.needed := by
  have hkeys := node.repoint_keys old new
  have hlen := congrArg List.length hkeys
  rw [length_map, length_map] at hlen
  have hsizes : ∀ n : Internal, n.entries.map internalRecordSize
      = (n.entries.map Prod.fst).map fun key => key.length + SEPARATOR_RECORD_OVERHEAD := by
    intro n
    rw [map_map]
    rfl
  unfold Internal.needed
  rw [hlen, hsizes, hsizes, hkeys]

theorem Internal.repoint_sized {old new : PageId} (h : node.Sized) (hnew : new ≤ U64_MAX) :
    (node.repoint old new).Sized := by
  intro child hchild
  rw [Internal.repoint_children] at hchild
  have hreplace : ∀ children : List PageId, (∀ c ∈ children, c ≤ U64_MAX) →
      ∀ c ∈ children.replace old new, c ≤ U64_MAX := by
    intro children
    induction children with
    | nil => exact fun h => h
    | cons x children ih =>
      intro hall c hc
      obtain ⟨hx, hrest⟩ := forall_mem_cons.mp hall
      rw [replace_cons] at hc
      cases hold : old == x with
      | true =>
        rw [hold] at hc
        exact (mem_cons.mp hc).elim (fun heq => heq ▸ hnew) (hrest c)
      | false =>
        rw [hold] at hc
        exact (mem_cons.mp hc).elim (fun heq => heq ▸ hx) (ih hrest c)
  exact hreplace _ h child hchild

end Routing

/-- **Codec, routing and patch agree.**  A node with ascending separators is encoded
    exactly if it fits.  The encoding decodes to the node, is routed in place by the
    reference rule, and a patched copy decodes to the node with the first link to the
    one page replaced by the other and the same separators. -/
theorem internal_codec_agrees (ps : Segment.PageSize) {node : Internal}
    (hasc : Ascending node.entries) (hsized : node.Sized) {buffer : Bytes}
    (hbuffer : buffer.length = bodyCapacity ps.bytes) :
    (node.fits ps.bytes = true → ∃ body, node.encode buffer = .ok body)
      ∧ (node.fits ps.bytes = false → node.encode buffer = .error .payloadTooLarge)
      ∧ ∀ body, node.encode buffer = .ok body → Internal.decode body = .ok node
          ∧ (∀ debug memo, ∃ acc, InternalAccessor.fromGuard debug body memo = .ok acc
            ∧ ∀ key, acc.childFor key = .ok (node.routed key))
          ∧ ∀ debug memo old new, new ≤ U64_MAX →
            ∃ patched changed, repointBody debug body memo old new = .ok patched
              ∧ Internal.decode patched = .ok changed
              ∧ changed.entries.map Prod.fst = node.entries.map Prod.fst
              ∧ changed.children = node.children.replace old new := by
  have hcap : buffer.length ≤ U16_MAX := hbuffer ▸ bodyCapacity_le ps
  have hneeded : node.fits ps.bytes = true ↔ node.needed ≤ buffer.length := by
    rw [hbuffer]
    exact node.fits_iff_needed ps.bytes
  have hrefused : node.fits ps.bytes = false → node.encode buffer = .error .payloadTooLarge := by
    intro hsmall
    unfold Internal.encode
    dsimp only
    unfold require
    have hno : ¬ HEADER_LEN + 0 + node.entries.length * SLOT_DIRECTORY_ENTRY_SIZE
        + (node.entries.map internalRecordSize).sum ≤ buffer.length := by
      intro hfits
      have hfits : node.needed ≤ buffer.length := hfits
      rw [← hneeded, hsmall] at hfits
      cases hfits
    rw [if_neg hno]
    rfl
  refine ⟨fun hfits => ⟨_, Internal.encode_eq hcap (hneeded.mp hfits)⟩, hrefused,
    fun body hencode => ?_⟩
  have hfits : node.needed ≤ buffer.length := by
    rw [← hneeded]
    by_contra hno
    rw [hrefused (Bool.eq_false_iff.mpr hno)] at hencode
    cases hencode
  rw [Internal.encode_eq hcap hfits] at hencode
  obtain rfl := Except.ok.inj hencode
  obtain ⟨hvalid, hdecode⟩ := Internal.decode_page hsized hcap hfits
  refine ⟨hdecode, fun debug memo => ?_, fun debug memo old new hnew => ?_⟩
  · refine ⟨_, InternalAccessor.fromGuard_eq hvalid rfl rfl debug memo, fun key => ?_⟩
    obtain ⟨node', hnode', hagrees⟩ := Internal.decode_of_valid hvalid rfl rfl
    rw [hdecode] at hnode'
    obtain rfl := Except.ok.inj hnode'
    rw [hagrees.childFor, Internal.childFor_eq_routed hasc]
  · have hfits' : (node.repoint old new).needed ≤ buffer.length := by
      rw [Internal.repoint_needed]
      exact hfits
    exact ⟨_, node.repoint old new, repointBody_page hsized hcap hfits debug memo old new,
      (Internal.decode_page (Internal.repoint_sized hsized hnew) hcap hfits').2,
      node.repoint_keys old new, node.repoint_children old new⟩

/-- Two separators over three children. -/
def threeChildren : Internal := ⟨5, [([2], 6), ([2, 7], 8)]⟩

theorem internal_codec_agrees_three_children :
    ∃ body patched, threeChildren.encode (List.replicate 4056 0) = .ok body
      ∧ Internal.decode body = .ok threeChildren
      ∧ repointBody true body false 6 11 = .ok patched
      ∧ ∃ changed, Internal.decode patched = .ok changed ∧ changed.children = [5, 11, 8] := by
  have hsized : threeChildren.Sized := by
    show ∀ child ∈ [5, 6, 8], child ≤ U64_MAX
    decide
  have h := internal_codec_agrees ⟨4096, 12, rfl⟩ (show Ascending threeChildren.entries by decide)
    hsized
    (show (List.replicate 4056 (0 : UInt8)).length = bodyCapacity 4096 from length_replicate)
  obtain ⟨body, hbody⟩ := h.1 (by decide)
  obtain ⟨hdecode, -, hpatch⟩ := h.2.2 body hbody
  obtain ⟨patched, changed, hrun, hchanged, -, hchildren⟩ := hpatch true false 6 11 (by decide)
  exact ⟨body, patched, hbody, hdecode, hrun, changed, hchanged, hchildren⟩

/-! ## §7. Validation is enough -/

theorem Internal.childFor_mem (node : Internal) (query : Bytes) :
    node.childFor query ∈ node.children := by
  unfold Internal.childFor
  dsimp only
  generalize partitionPoint _ node.entries.length 0 node.entries.length = lo
  split_ifs with hzero
  · exact mem_cons_self
  · cases he : node.entries[lo - 1]? with
    | none => exact mem_cons_self
    | some e => exact mem_cons_of_mem _ (mem_map_of_mem (mem_of_getElem? he))

/-- **When accepted bodies are read in place.**  Every accepted body decodes.  The
    accessor of a leaf body shows the decoder's records slot by slot, and its search is
    the search over the decoded keys.  The accessor of an internal body shows the
    decoder's entries, and routes every key to the child of the decoded node, exactly
    when it reads the same directory and, with debug assertions, there is no prefix. -/
theorem validated_bodies_read_in_place {body : Bytes} {h : NodeHeader}
    (hvalid : validateNodeBody body = .ok h) :
    (h.kind = .leaf → ∃ leaf, Leaf.decode body = .ok leaf ∧ ∀ memo, ∃ acc,
        LeafAccessor.fromGuard body memo = .ok acc ∧ acc.Agrees leaf
          ∧ ∀ query, acc.find query = .ok (leaf.search query)
            ∧ ∀ i, leaf.search query = some i → ∃ r, leaf.records[i]? = some r ∧ r.1 = query)
      ∧ (h.kind = .internal → ∃ node, Internal.decode body = .ok node ∧ ∀ debug memo,
        ((∃ acc, InternalAccessor.fromGuard debug body memo = .ok acc ∧ acc.Agrees node
            ∧ ∀ query, acc.childFor query = .ok (node.childFor query)
              ∧ node.childFor query ∈ node.children)
          ↔ (debug = true → h.prefixLen = 0) ∧ h.SameDirectory body)) := by
  constructor
  · intro hkind
    obtain ⟨leaf, hdecode, hagrees⟩ := Leaf.decode_of_valid hvalid hkind
    refine ⟨leaf, hdecode, fun memo => ⟨_, LeafAccessor.fromGuard_eq hvalid hkind memo, hagrees,
      fun query => ⟨hagrees.find query, fun i hi => Leaf.search_eq_some hi⟩⟩⟩
  · intro hkind
    obtain ⟨node, hdecode, hagrees⟩ := Internal.agrees_iff_of_valid hvalid hkind
    refine ⟨node, hdecode, fun debug memo => ⟨?_, ?_⟩⟩
    · rintro ⟨acc, hguard, hacc, -⟩
      obtain ⟨hdebug, rfl⟩ := (InternalAccessor.fromGuard_eq_ok hvalid hkind debug memo).mp hguard
      exact ⟨hdebug, hagrees.mp hacc⟩
    · rintro ⟨hdebug, hsame⟩
      have hacc := hagrees.mpr hsame
      exact ⟨_, (InternalAccessor.fromGuard_eq_ok hvalid hkind debug memo).mpr ⟨hdebug, rfl⟩, hacc,
        fun query => ⟨hacc.childFor query, node.childFor_mem query⟩⟩

/-- A leaf of two records with a prefix, and an internal node of two entries. -/
theorem validated_bodies_read_in_place_filled :
    (∃ acc, LeafAccessor.fromGuard (twoRecords.page 4056) false = .ok acc
        ∧ acc.find [1, 2, 4] = .ok (some 1))
      ∧ ∃ acc, InternalAccessor.fromGuard true (threeChildren.page 4056) false = .ok acc
        ∧ acc.childFor [2, 3] = .ok 6 := by
  constructor
  · have hvalid : validateNodeBody (twoRecords.page 4056) = .ok twoRecords.header := by
      decide +kernel
    obtain ⟨leaf, hdecode, hread⟩ := (validated_bodies_read_in_place hvalid).1 rfl
    have hleaf : Leaf.decode (twoRecords.page 4056) = .ok twoRecords := by decide +kernel
    rw [hleaf] at hdecode
    obtain rfl := Except.ok.inj hdecode
    obtain ⟨acc, hguard, -, hfind⟩ := hread false
    exact ⟨acc, hguard, (hfind [1, 2, 4]).1⟩
  · have hvalid : validateNodeBody (threeChildren.page 4056) = .ok threeChildren.header := by
      decide +kernel
    obtain ⟨node, hdecode, hread⟩ := (validated_bodies_read_in_place hvalid).2 rfl
    have hnode : Internal.decode (threeChildren.page 4056) = .ok threeChildren := by decide +kernel
    rw [hnode] at hdecode
    obtain rfl := Except.ok.inj hdecode
    obtain ⟨acc, hguard, -, hroute⟩ := (hread true false).mpr ⟨fun _ => rfl, fun _ _ => rfl⟩
    exact ⟨acc, hguard, (hroute [2, 3]).1⟩

/-- An internal body with one entry and a prefix of two bytes. -/
def prefixedBody : Bytes :=
  NodeHeader.bytes ⟨.internal, 1, 2, 0, 7⟩ ++ ([0xFF, 0xFF] ++ (leBytes 2 100 ++ List.replicate 4028 0))

/-- **A prefix in an internal body leads the accessor outside the body.**  The body is
    accepted and decodes; with debug assertions the accessor is not built, without
    them it takes the prefix for the directory and every lookup panics. -/
theorem prefixed_internal_body_panics : prefixedBody.length = bodyCapacity 4096
      ∧ (∃ h, validateNodeBody prefixedBody = .ok h ∧ h.kind = .internal)
      ∧ (∃ node, Internal.decode prefixedBody = .ok node)
      ∧ InternalAccessor.fromGuard true prefixedBody false = .error .panic
      ∧ ∃ acc, InternalAccessor.fromGuard false prefixedBody false = .ok acc
        ∧ ∀ query, acc.childFor query = .error .panic := by
  refine ⟨by decide +kernel, ⟨⟨.internal, 1, 2, 0, 7⟩, by decide +kernel, rfl⟩,
    ⟨⟨7, [([], 0)]⟩, by decide +kernel⟩, by decide +kernel, ⟨prefixedBody, 1, 7⟩, by decide +kernel,
    fun query => ?_⟩
  have hkey : InternalAccessor.entryKey ⟨prefixedBody, 1, 7⟩ 0 = .error .panic := by
    decide +kernel
  show ((InternalAccessor.entryKey ⟨prefixedBody, 1, 7⟩ 0 >>= fun key => _) >>= _) = _
  rw [hkey]
  rfl

end Pagedb
