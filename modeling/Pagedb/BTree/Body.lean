/-
  Pagedb.BTree.Body — encoded nodes (`btree/node.rs`).

  A node body is a byte string: a header, a key prefix, a slot directory, and
  records from the end of the body down.  Reads and writes outside the body
  panic, as slice indexing does.

    * `validateNodeBody_eq_ok` — what an accepted body is;
    * `encodeRecords_eq`       — both encoders lay out a slotted page.
-/
import Pagedb.BTree.Node
import Pagedb.Lib.Exec
import Pagedb.Lib.Slotted

namespace Pagedb

open Lib List

/-! ## §1. Access -/

/-- `PagedbError`, as far as the codecs raise it: `node_body_malformed`,
    `node_kind_mismatch` (without a page), `PayloadTooLarge`, `Io`.  `panic` is an
    index out of range or a failed assertion. -/
inductive NodeError where
  | malformed (field : String)
  | kindMismatch (expected found : String)
  | payloadTooLarge
  | io (text : String)
  | panic
  deriving DecidableEq, Repr

/-- `&body[start..stop]`. -/
def bodyRange (body : Bytes) (start stop : Nat) : Except NodeError Bytes :=
  if start ≤ stop ∧ stop ≤ body.length then .ok (slice body start (stop - start)) else .error .panic

/-- `body[off..off + data.len()].copy_from_slice(data)`. -/
def writeBytes (body : Bytes) (off : Nat) (data : Bytes) : Except NodeError Bytes :=
  if off + data.length ≤ body.length then .ok (writeAt 0 body off data) else .error .panic

/-- A `width`-byte little-endian field. -/
def readLe (width : Nat) (body : Bytes) (offset : Nat) : Except NodeError Nat :=
  if offset + width ≤ body.length then .ok (ofLeBytes (slice body offset width)) else .error .panic

/-- `read_u16_le`. -/
def readU16Le (body : Bytes) (offset : Nat) : Except NodeError Nat := readLe 2 body offset

/-- `read_u64_le`. -/
def readU64Le (body : Bytes) (offset : Nat) : Except NodeError Nat := readLe 8 body offset

/-- `write_u16_le`. -/
def writeU16Le (body : Bytes) (offset value : Nat) : Except NodeError Bytes :=
  writeBytes body offset (leBytes 2 value)

/-- `write_u64_le`. -/
def writeU64Le (body : Bytes) (offset value : Nat) : Except NodeError Bytes :=
  writeBytes body offset (leBytes 8 value)

/-- `u16::try_from`, with the text of the error. -/
def tryU16 (n : Nat) (text : String) : Except NodeError Nat :=
  if n ≤ U16_MAX then .ok n else .error (.io text)

section Access

variable {body data a b : Bytes} {off start len width n : Nat} {text : String}

theorem bodyRange_eq (h : start + len ≤ body.length) :
    bodyRange body start (start + len) = .ok (slice body start len) := by
  unfold bodyRange
  rw [if_pos ⟨Nat.le_add_right _ _, h⟩, Nat.add_sub_cancel_left]

theorem writeBytes_eq (h : off + data.length ≤ body.length) :
    writeBytes body off data = .ok (writeAt 0 body off data) := if_pos h

theorem readLe_eq (h : off + width ≤ body.length) :
    readLe width body off = .ok (ofLeBytes (slice body off width)) := if_pos h

theorem tryU16_eq (h : n ≤ U16_MAX) : tryU16 n text = .ok n := if_pos h

/-- Two writes, one behind the other, are one: also where they panic. -/
theorem writeBytes_append {α : Type} (body a b : Bytes) {off off' : Nat}
    (next : Bytes → Except NodeError α) (hoff : off' = off + a.length) :
    (writeBytes body off a >>= fun body => writeBytes body off' b >>= next)
      = writeBytes body off (a ++ b) >>= next := by
  subst hoff
  by_cases hab : off + (a ++ b).length ≤ body.length
  · have hlen := hab
    rw [length_append] at hlen
    have ha : off + a.length ≤ body.length := by omega
    rw [writeBytes_eq hab, ok_bind (writeBytes_eq ha)]
    rw [writeBytes_eq (by rw [writeAt_length 0 ha]; omega), writeAt_writeAt 0 hab]
  · have hpanic : writeBytes body off (a ++ b) = .error .panic := if_neg hab
    rw [hpanic]
    by_cases ha : off + a.length ≤ body.length
    · rw [ok_bind (writeBytes_eq ha)]
      have hb : writeBytes (writeAt 0 body off a) (off + a.length) b = .error .panic := by
        refine if_neg fun h => hab ?_
        rw [writeAt_length 0 ha] at h
        rw [length_append]
        omega
      rw [hb]
    · rw [show writeBytes body off a = .error .panic from if_neg ha]
      rfl

theorem writeBytes_last (body a b : Bytes) {off off' : Nat} (hoff : off' = off + a.length) :
    (writeBytes body off a >>= fun body => writeBytes body off' b)
      = writeBytes body off (a ++ b) := by
  have h := writeBytes_append body a b pure hoff
  simpa only [bind_pure] using h

theorem readLe_of_hasAt (h : HasAt body off (leBytes width n)) (hn : n < 256 ^ width) :
    readLe width body off = .ok n := by
  have hin := h.inside
  have heq := h.eq
  rw [leBytes_length] at hin heq
  rw [readLe_eq hin, heq, ofLeBytes_leBytes_of_lt hn]

theorem readU16Le_of_hasAt (h : HasAt body off (leBytes 2 n)) (hn : n ≤ U16_MAX) :
    readU16Le body off = .ok n := readLe_of_hasAt h (Nat.lt_of_le_of_lt hn (by decide))

theorem readU64Le_of_hasAt (h : HasAt body off (leBytes 8 n)) (hn : n ≤ U64_MAX) :
    readU64Le body off = .ok n := readLe_of_hasAt h (Nat.lt_of_le_of_lt hn (by decide))

theorem bodyRange_of_hasAt (h : HasAt body off data) :
    bodyRange body off (off + data.length) = .ok data := by
  rw [bodyRange_eq h.inside, h.eq]

end Access

/-! ## §2. The header -/

/-- `NodeKind`. -/
inductive NodeKind where
  | internal
  | leaf
  deriving DecidableEq, Repr

/-- `NodeKind::as_byte`. -/
def NodeKind.asByte : NodeKind → UInt8
  | internal => 0x00
  | leaf => 0x01

/-- `NodeKind::from_byte`. -/
def NodeKind.fromByte (b : UInt8) : Except NodeError NodeKind :=
  if b = 0x00 then .ok internal
  else if b = 0x01 then .ok leaf
  else .error (.malformed "node_kind_byte")

/-- `OFF_NODE_KIND`. -/
def OFF_NODE_KIND : Nat := 0
/-- `OFF_SLOT_COUNT`. -/
def OFF_SLOT_COUNT : Nat := 2
/-- `OFF_PREFIX_LEN`. -/
def OFF_PREFIX_LEN : Nat := 4
/-- `OFF_LEFT_SIBLING`. -/
def OFF_LEFT_SIBLING : Nat := 8
/-- `OFF_DUAL_USE`. -/
def OFF_DUAL_USE : Nat := 16
/-- `OVERFLOW_SENTINEL`. -/
def OVERFLOW_SENTINEL : Nat := 0xFFFF

/-- `NodeHeader`. -/
structure NodeHeader where
  kind : NodeKind
  slotCount : Nat
  prefixLen : Nat
  leftSibling : PageId
  dualUse : PageId
  deriving DecidableEq, Repr

/-- `read_header`. -/
def readHeader (body : Bytes) : Except NodeError NodeHeader := do
  require (HEADER_LEN ≤ body.length) (.malformed "header_length")
  let byte ← bodyRange body OFF_NODE_KIND (OFF_NODE_KIND + 1)
  let kind ← NodeKind.fromByte (byte.headD 0)
  let slotCount ← readU16Le body OFF_SLOT_COUNT
  let prefixLen ← readU16Le body OFF_PREFIX_LEN
  let leftSibling ← readU64Le body OFF_LEFT_SIBLING
  let dualUse ← readU64Le body OFF_DUAL_USE
  pure { kind, slotCount, prefixLen, leftSibling, dualUse }

/-- `write_header`. -/
def writeHeader (body : Bytes) (kind : NodeKind) (slotCount prefixLen : Nat)
    (leftSibling dualUse : PageId) : Except NodeError Bytes := do
  let body ← writeBytes body OFF_NODE_KIND [kind.asByte]
  let body ← writeBytes body 1 [0]
  let body ← writeU16Le body OFF_SLOT_COUNT slotCount
  let body ← writeU16Le body OFF_PREFIX_LEN prefixLen
  let body ← writeU16Le body 6 0
  let body ← writeU64Le body OFF_LEFT_SIBLING leftSibling
  writeU64Le body OFF_DUAL_USE dualUse

/-- The bytes of a header. -/
def NodeHeader.bytes (h : NodeHeader) : Bytes :=
  [h.kind.asByte] ++ ([0] ++ (leBytes 2 h.slotCount ++ (leBytes 2 h.prefixLen ++ (leBytes 2 0
    ++ (leBytes 8 h.leftSibling ++ leBytes 8 h.dualUse)))))

/-- The fields of a header are of their types. -/
structure NodeHeader.Sized (h : NodeHeader) : Prop where
  slotCount : h.slotCount ≤ U16_MAX
  prefixLen : h.prefixLen ≤ U16_MAX
  leftSibling : h.leftSibling ≤ U64_MAX
  dualUse : h.dualUse ≤ U64_MAX

@[simp] theorem NodeHeader.bytes_length (h : NodeHeader) : h.bytes.length = HEADER_LEN := by
  unfold NodeHeader.bytes
  simp [HEADER_LEN]

theorem NodeKind.fromByte_asByte (kind : NodeKind) : fromByte kind.asByte = .ok kind := by
  cases kind <;> rfl

theorem writeHeader_eq (body : Bytes) (h : NodeHeader) :
    writeHeader body h.kind h.slotCount h.prefixLen h.leftSibling h.dualUse
      = writeBytes body 0 h.bytes := by
  unfold writeHeader writeU16Le writeU64Le
  rw [writeBytes_append, writeBytes_append, writeBytes_append, writeBytes_append,
    writeBytes_append, writeBytes_last] <;> rfl

/-- A header that was written can be read. -/
theorem readHeader_of_hasAt {body : Bytes} {h : NodeHeader} (hs : h.Sized)
    (hbody : HasAt body 0 h.bytes) : readHeader body = .ok h := by
  have hlen : HEADER_LEN ≤ body.length := by
    have := hbody.inside
    rw [NodeHeader.bytes_length] at this
    omega
  unfold NodeHeader.bytes at hbody
  -- the fields, one behind the other
  have hkind : bodyRange body OFF_NODE_KIND (OFF_NODE_KIND + 1) = .ok [h.kind.asByte] :=
    bodyRange_of_hasAt hbody.left
  have hbody := hbody.right.right
  have hcount : readU16Le body OFF_SLOT_COUNT = .ok h.slotCount :=
    readU16Le_of_hasAt hbody.left hs.slotCount
  have hbody := hbody.right
  have hpre : readU16Le body OFF_PREFIX_LEN = .ok h.prefixLen :=
    readU16Le_of_hasAt hbody.left hs.prefixLen
  have hbody := hbody.right.right
  have hleft : readU64Le body OFF_LEFT_SIBLING = .ok h.leftSibling :=
    readU64Le_of_hasAt hbody.left hs.leftSibling
  have hdual : readU64Le body OFF_DUAL_USE = .ok h.dualUse :=
    readU64Le_of_hasAt hbody.right hs.dualUse
  unfold readHeader
  rw [require_bind hlen, ok_bind hkind, headD_cons, ok_bind (NodeKind.fromByte_asByte h.kind)]
  rw [ok_bind hcount, ok_bind hpre, ok_bind hleft, ok_bind hdual]
  rfl

/-! ## §3. Validation -/

/-- `slot_offset`. -/
def slotOffset (body : Bytes) (prefixLen slotIndex : Nat) : Except NodeError Nat :=
  readU16Le body (HEADER_LEN + prefixLen + slotIndex * 2)

/-- `write_slot_offset`. -/
def writeSlotOffset (body : Bytes) (prefixLen slotIndex value : Nat) : Except NodeError Bytes :=
  writeU16Le body (HEADER_LEN + prefixLen + slotIndex * 2) value

/-- `field_end`. -/
def fieldEnd (body : Bytes) (start len : Nat) : Except NodeError Nat :=
  if start + len ≤ body.length then .ok (start + len) else .error (.malformed "slot_directory")

/-- `validate_leaf_record`. -/
def validateLeafRecord (body : Bytes) (offset : Nat) : Except NodeError Unit := do
  let afterSuffixLen ← fieldEnd body offset 2
  let suffixLen ← readU16Le body offset
  let afterSuffix ← fieldEnd body afterSuffixLen suffixLen
  let afterValueLen ← fieldEnd body afterSuffix 2
  let valueLenRaw ← readU16Le body afterSuffix
  let _ ← fieldEnd body afterValueLen (if valueLenRaw = OVERFLOW_SENTINEL then 16 else valueLenRaw)
  pure ()

/-- `validate_internal_record`. -/
def validateInternalRecord (body : Bytes) (offset : Nat) : Except NodeError Unit := do
  let afterKeyLen ← fieldEnd body offset 2
  let keyLen ← readU16Le body offset
  let afterKey ← fieldEnd body afterKeyLen keyLen
  let _ ← fieldEnd body afterKey 8
  pure ()

/-- The check of a record. -/
def validateRecord : NodeKind → Bytes → Nat → Except NodeError Unit
  | .leaf => validateLeafRecord
  | .internal => validateInternalRecord

/-- `validate_node_body`. -/
def validateNodeBody (body : Bytes) : Except NodeError NodeHeader := do
  let header ← readHeader body
  require (HEADER_LEN + header.prefixLen + header.slotCount * 2 ≤ body.length)
    (.malformed "slot_directory")
  (List.range header.slotCount).forM fun slotIndex => do
    let offset ← slotOffset body header.prefixLen slotIndex
    validateRecord header.kind body offset
  pure header

/-- `validate_node_body_memoised`, with the memo it leaves. -/
def validateNodeBodyMemoised (body : Bytes) (memo : Bool) : Except NodeError (NodeHeader × Bool) :=
  if memo then do
    let header ← readHeader body
    pure (header, true)
  else do
    let header ← validateNodeBody body
    pure (header, true)

section Validation

variable {body : Bytes} {h : NodeHeader} {start len off : Nat}

theorem fieldEnd_bind {α : Type} {f : Nat → Except NodeError α} {a : α} :
    (fieldEnd body start len >>= f) = .ok a
      ↔ start + len ≤ body.length ∧ f (start + len) = .ok a := by
  unfold fieldEnd
  split_ifs with hin
  · exact (and_iff_right hin).symm
  · exact ⟨fun heq => (by cases heq), fun heq => absurd heq.1 hin⟩

/-- The extents of a leaf record lie inside the body. -/
structure LeafRecordIn (body : Bytes) (off suffixLen valueLenRaw : Nat) : Prop where
  suffix : readU16Le body off = .ok suffixLen
  value : readU16Le body (off + 2 + suffixLen) = .ok valueLenRaw
  inside : off + 2 + suffixLen + 2
    + (if valueLenRaw = OVERFLOW_SENTINEL then 16 else valueLenRaw) ≤ body.length

/-- So do those of an internal one. -/
structure InternalRecordIn (body : Bytes) (off keyLen : Nat) : Prop where
  key : readU16Le body off = .ok keyLen
  inside : off + 2 + keyLen + 8 ≤ body.length

theorem validateLeafRecord_eq_ok : validateLeafRecord body off = .ok ()
      ↔ ∃ suffixLen valueLenRaw, LeafRecordIn body off suffixLen valueLenRaw := by
  unfold validateLeafRecord
  constructor
  · intro hrun
    obtain ⟨-, hrun⟩ := fieldEnd_bind.mp hrun
    obtain ⟨suffixLen, hsuffix, hrun⟩ := except_bind_eq_ok.mp hrun
    obtain ⟨-, hrun⟩ := fieldEnd_bind.mp hrun
    obtain ⟨-, hrun⟩ := fieldEnd_bind.mp hrun
    obtain ⟨valueLenRaw, hvalue, hrun⟩ := except_bind_eq_ok.mp hrun
    exact ⟨suffixLen, valueLenRaw, hsuffix, hvalue, (fieldEnd_bind.mp hrun).1⟩
  · rintro ⟨suffixLen, valueLenRaw, hsuffix, hvalue, hin⟩
    refine fieldEnd_bind.mpr ⟨by omega, ?_⟩
    rw [ok_bind hsuffix]
    refine fieldEnd_bind.mpr ⟨by omega, fieldEnd_bind.mpr ⟨by omega, ?_⟩⟩
    rw [ok_bind hvalue]
    exact fieldEnd_bind.mpr ⟨hin, rfl⟩

theorem validateInternalRecord_eq_ok :
    validateInternalRecord body off = .ok () ↔ ∃ keyLen, InternalRecordIn body off keyLen := by
  unfold validateInternalRecord
  constructor
  · intro hrun
    obtain ⟨-, hrun⟩ := fieldEnd_bind.mp hrun
    obtain ⟨keyLen, hkey, hrun⟩ := except_bind_eq_ok.mp hrun
    obtain ⟨-, hrun⟩ := fieldEnd_bind.mp hrun
    exact ⟨keyLen, hkey, (fieldEnd_bind.mp hrun).1⟩
  · rintro ⟨keyLen, hkey, hin⟩
    refine fieldEnd_bind.mpr ⟨by omega, ?_⟩
    rw [ok_bind hkey]
    exact fieldEnd_bind.mpr ⟨by omega, fieldEnd_bind.mpr ⟨hin, rfl⟩⟩

/-- **What an accepted body is**: a header, a directory inside the body, and a
    record inside the body for each slot. -/
theorem validateNodeBody_eq_ok : validateNodeBody body = .ok h ↔ readHeader body = .ok h
      ∧ HEADER_LEN + h.prefixLen + h.slotCount * 2 ≤ body.length
      ∧ ∀ i < h.slotCount, ∃ off, slotOffset body h.prefixLen i = .ok off
          ∧ validateRecord h.kind body off = .ok () := by
  unfold validateNodeBody
  constructor
  · intro hrun
    obtain ⟨header, hheader, hrun⟩ := except_bind_eq_ok.mp hrun
    obtain ⟨hdir, hrun⟩ := require_bind_eq_ok.mp hrun
    obtain ⟨_, hslots, hrun⟩ := except_bind_eq_ok.mp hrun
    obtain rfl := Except.ok.inj hrun
    refine ⟨hheader, hdir, fun i hi => ?_⟩
    exact except_bind_eq_ok.mp (forM_eq_ok.mp hslots i (mem_range.mpr hi))
  · rintro ⟨hheader, hdir, hslots⟩
    rw [ok_bind hheader, require_bind hdir]
    refine except_bind_eq_ok.mpr ⟨(), forM_eq_ok.mpr fun i hi => ?_, rfl⟩
    exact except_bind_eq_ok.mpr (hslots i (mem_range.mp hi))

theorem validateNodeBodyMemoised_eq (hvalid : validateNodeBody body = .ok h) (memo : Bool) :
    validateNodeBodyMemoised body memo = .ok (h, true) := by
  unfold validateNodeBodyMemoised
  cases memo with
  | true =>
    rw [if_pos rfl, ok_bind (validateNodeBody_eq_ok.mp hvalid).1]
    rfl
  | false =>
    rw [if_neg Bool.false_ne_true, ok_bind hvalid]
    rfl

end Validation

/-! ## §4. The encoders' loop -/

/-- The loop of both encoders: each record goes before the last one, and its offset
    into the directory. -/
def encodeRecords {ρ : Type} (size : ρ → Nat) (write : Bytes → Nat → ρ → Except NodeError Bytes)
    (prefixLen : Nat) : List ρ → Nat → Nat → Bytes → Except NodeError Bytes
  | [], _, _, body => .ok body
  | r :: records, i, tail, body => do
    require (size r ≤ tail) .panic
    let off := tail - size r
    let body ← write body off r
    let slot ← tryU16 off "record_offset overflow"
    let body ← writeSlotOffset body prefixLen i slot
    encodeRecords size write prefixLen records (i + 1) off body

/-- The header and the zeros behind it are a page without records. -/
theorem writeHeader_zeros {α : Type} {body : Bytes} (h : NodeHeader) (hbody : HEADER_LEN ≤ body.length)
    (next : Bytes → Except NodeError α) :
    (writeHeader body h.kind h.slotCount h.prefixLen h.leftSibling h.dualUse >>= fun body' =>
      writeBytes body' HEADER_LEN (List.replicate (body.length - HEADER_LEN) 0) >>= next)
      = next (slotted body.length h.bytes []) := by
  rw [writeHeader_eq, writeBytes_append _ _ _ _ (by rw [NodeHeader.bytes_length, Nat.zero_add])]
  have hlen : (h.bytes ++ List.replicate (body.length - HEADER_LEN) 0).length = body.length := by
    rw [length_append, NodeHeader.bytes_length, length_replicate]
    omega
  rw [ok_bind (writeBytes_eq (by omega))]
  -- the whole body is written over
  have hwrite : ∀ data : Bytes, data.length = body.length → writeAt 0 body 0 data = data := by
    intro data hdata
    have h : writeAt 0 ([] ++ (body ++ [])) 0 data = [] ++ (data ++ []) :=
      writeAt_mid 0 rfl hdata.symm
    simpa using h
  rw [hwrite _ hlen]
  unfold slotted
  simp [directory, slotsFrom]

/-- The prefix is a part of the front. -/
theorem writePrefix_eq {cap : Nat} {front pre : Bytes} (hfits : front.length + pre.length ≤ cap) :
    writeBytes (slotted cap front []) front.length pre = .ok (slotted cap (front ++ pre) []) := by
  have hlen : (slotted cap front []).length = cap := slotted_length (by
    unfold SlottedFits
    simpa using by omega)
  rw [writeBytes_eq (by rw [hlen]; exact hfits)]
  have hgap : cap - front.length = pre.length + (cap - (front ++ pre).length) := by
    rw [length_append]
    omega
  unfold slotted
  simp only [directory, slotsFrom, flatMap_nil, length_nil, Nat.mul_zero,
    flatten_nil, reverse_nil, append_nil, nil_append, Nat.add_zero]
  rw [hgap, ← replicate_append_replicate, writeAt_mid 0 rfl (by simp), append_assoc]

/-- **Both encoders lay out a slotted page**, where a record is written as the bytes
    `enc` gives it and everything fits. -/
theorem encodeRecords_eq {ρ : Type} {size : ρ → Nat}
    {write : Bytes → Nat → ρ → Except NodeError Bytes} {enc : ρ → Bytes} {prefixLen cap : Nat}
    {front : Bytes} (hfront : front.length = HEADER_LEN + prefixLen) (hcap : cap ≤ U16_MAX)
    (records : List ρ) :
    ∀ (done : List Bytes), (∀ r ∈ records, size r = (enc r).length) →
      (∀ r ∈ records, ∀ body off, write body off r = writeBytes body off (enc r)) →
      SlottedFits cap front (done ++ records.map enc) →
      encodeRecords size write prefixLen records done.length (cap - done.flatten.length)
          (slotted cap front done)
        = .ok (slotted cap front (done ++ records.map enc)) := by
  induction records with
  | nil =>
    intro done _ _ _
    rw [map_nil, append_nil]
    rfl
  | cons r records ih =>
    intro done hsize hwrite hfits
    have hsnoc : SlottedFits cap front (done ++ [enc r]) := by
      unfold SlottedFits at hfits ⊢
      simp only [map_cons, length_append, flatten_append, flatten_cons,
        length_cons, length_nil, flatten_nil] at hfits ⊢
      omega
    have hroom : front.length + 2 * (done.length + 1) + (done.flatten.length + (enc r).length)
        ≤ cap := by
      unfold SlottedFits at hsnoc
      simpa using hsnoc
    have hdone : SlottedFits cap front done := by
      unfold SlottedFits
      omega
    have hlen := slotted_length hdone
    unfold encodeRecords
    rw [hsize r mem_cons_self, require_bind (by omega)]
    dsimp only
    have hin : cap - done.flatten.length - (enc r).length + (enc r).length
        ≤ (slotted cap front done).length := by
      rw [hlen]
      omega
    rw [hwrite r mem_cons_self, ok_bind (writeBytes_eq hin), ok_bind (tryU16_eq (by omega))]
    have hslot : HEADER_LEN + prefixLen + done.length * 2 + 2 ≤ (writeAt 0
        (slotted cap front done) (cap - done.flatten.length - (enc r).length) (enc r)).length := by
      rw [writeAt_length 0 hin, hlen]
      omega
    unfold writeSlotOffset writeU16Le
    rw [ok_bind (writeBytes_eq (by rw [leBytes_length]; exact hslot)),
      ← hfront, Nat.mul_comm done.length, slotted_snoc hsnoc]
    have hnext := ih (done ++ [enc r]) (fun r hr => hsize r (mem_cons_of_mem _ hr))
      (fun r hr => hwrite r (mem_cons_of_mem _ hr)) (by simpa using hfits)
    rw [append_assoc] at hnext
    rw [length_append, length_singleton, flatten_append, flatten_singleton,
      length_append, ← Nat.sub_sub] at hnext
    exact hnext

/-! ## §5. Reading a slotted page -/

section Slots

variable {cap : Nat} {h : NodeHeader} {pre : Bytes} {records : List Bytes}

theorem hasAt_header (h : NodeHeader) (cap : Nat) (pre : Bytes) (records : List Bytes) :
    HasAt (slotted cap (h.bytes ++ pre) records) 0 h.bytes := by
  unfold slotted
  rw [append_assoc]
  rw [← nil_append (h.bytes ++ _)]
  exact hasAt_mid rfl

theorem hasAt_pre (h : NodeHeader) (cap : Nat) (pre : Bytes) (records : List Bytes) :
    HasAt (slotted cap (h.bytes ++ pre) records) HEADER_LEN pre := by
  unfold slotted
  rw [append_assoc]
  exact hasAt_mid h.bytes_length

/-- A write of the last header field changes that field only. -/
theorem writeDualUse_slotted (h : NodeHeader) (new cap : Nat) (pre : Bytes) (records : List Bytes) :
    writeAt 0 (slotted cap (h.bytes ++ pre) records) OFF_DUAL_USE (leBytes 8 new)
      = slotted cap ({ h with dualUse := new }.bytes ++ pre) records := by
  have hlen : (h.bytes ++ pre).length = ({ h with dualUse := new }.bytes ++ pre).length := by
    rw [length_append, length_append, NodeHeader.bytes_length, NodeHeader.bytes_length]
  unfold slotted
  rw [hlen]
  generalize directory cap records ++ _ = rest
  obtain ⟨front, hfront, hcut⟩ : ∃ front : Bytes, front.length = OFF_DUAL_USE
      ∧ ∀ dual, { h with dualUse := dual }.bytes = front ++ leBytes 8 dual := by
    refine ⟨[h.kind.asByte] ++ ([0] ++ (leBytes 2 h.slotCount ++ (leBytes 2 h.prefixLen
      ++ (leBytes 2 0 ++ leBytes 8 h.leftSibling)))), rfl, fun dual => ?_⟩
    unfold NodeHeader.bytes
    simp only [append_assoc]
  have hold : h.bytes = front ++ leBytes 8 h.dualUse := hcut h.dualUse
  rw [hold, hcut new]
  simp only [append_assoc]
  refine writeAt_mid 0 hfront ?_
  rw [leBytes_length, leBytes_length]

theorem slotOffset_cut (hcap : cap ≤ U16_MAX) (done rest : List Bytes) (r : Bytes) :
    slotOffset (slotted cap (h.bytes ++ pre) (done ++ r :: rest)) pre.length done.length
      = .ok (cap - done.flatten.length - r.length) := by
  have hslot := slotted_slot cap (h.bytes ++ pre) done rest r
  rw [length_append, NodeHeader.bytes_length, Nat.mul_comm] at hslot
  exact readU16Le_of_hasAt hslot (by omega)

/-- A slot leads to its record. -/
theorem slotOffset_slotted {i : Nat} {r : Bytes} (hcap : cap ≤ U16_MAX)
    (hfits : SlottedFits cap (h.bytes ++ pre) records) (hr : records[i]? = some r) :
    ∃ off, slotOffset (slotted cap (h.bytes ++ pre) records) pre.length i = .ok off
      ∧ HasAt (slotted cap (h.bytes ++ pre) records) off r := by
  obtain ⟨hi, rfl⟩ := List.getElem?_eq_some_iff.mp hr
  have hcut : records = records.take i ++ records[i] :: records.drop (i + 1) := by
    rw [getElem_cons_drop, take_append_drop]
  have hlen : (records.take i).length = i := by
    rw [length_take]
    omega
  generalize records.take i = done at hcut hlen
  generalize records[i] = r at hcut
  generalize records.drop (i + 1) = rest at hcut
  subst hcut hlen
  exact ⟨_, slotOffset_cut hcap done rest r, slotted_record hfits⟩

end Slots

end Pagedb
