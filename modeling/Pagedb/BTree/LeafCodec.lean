/-
  Pagedb.BTree.LeafCodec — encoded leaves (`btree/leaf.rs`).

  A leaf is written with the longest common prefix of its keys once, and read
  either whole (`Leaf::decode`) or in place (`LeafAccessor`).

    * `LeafAccessor.Agrees`      — the accessor shows what the decoder returns;
    * `Leaf.decode_of_valid`     — on every accepted body it does;
    * `Leaf.encode_eq`           — the encoding is a slotted page.
-/
import Pagedb.BTree.Body
import Pagedb.BTree.Session
import Pagedb.Lib.Paging
import Pagedb.Segment.Format

namespace Pagedb

open Lib List

/-! ## §1. The codec -/

/-- `lcp`. -/
def lcp : Records → Bytes
  | [] => []
  | (first, value) :: records => first.take (lcpLen ((first, value) :: records))

/-- The body of the decoder's loop: the record at an offset. -/
def decodeLeafRecord (body prefixBytes : Bytes) (off : Nat) :
    Except NodeError (Bytes × LeafValue) := do
  let suffixLen ← readU16Le body off
  let suffix ← bodyRange body (off + 2) (off + 2 + suffixLen)
  let valueLenRaw ← readU16Le body (off + 2 + suffixLen)
  let value ← if valueLenRaw = OVERFLOW_SENTINEL then do
      let totalLen ← readU64Le body (off + 2 + suffixLen + 2)
      let rootPageId ← readU64Le body (off + 2 + suffixLen + 2 + 8)
      pure (LeafValue.overflow totalLen rootPageId)
    else do
      let start := off + 2 + suffixLen + 2
      let bytes ← bodyRange body start (start + valueLenRaw)
      pure (LeafValue.inline bytes)
  pure (prefixBytes ++ suffix, value)

/-- `Leaf::decode`. -/
def Leaf.decode (body : Bytes) : Except NodeError Leaf := do
  let h ← validateNodeBody body
  require (h.kind = .leaf) (.kindMismatch "leaf" "internal")
  let prefixBytes ← bodyRange body HEADER_LEN (HEADER_LEN + h.prefixLen)
  let records ← (List.range h.slotCount).mapM fun i => do
    let off ← slotOffset body h.prefixLen i
    decodeLeafRecord body prefixBytes off
  pure { leftSibling := h.leftSibling, rightSibling := h.dualUse, records }

/-- The size of a record behind a prefix. -/
def leafRecordSize (prefixLen : Nat) (r : Bytes × LeafValue) : Nat :=
  2 + (r.1.length - prefixLen) + r.2.encodedSize

/-- `needed`, the size the encoder compares with the buffer. -/
def leafNeeded (records : Records) : Nat :=
  HEADER_LEN + lcpLen records + records.length * 2
    + (records.map (leafRecordSize (lcpLen records))).sum

/-- The body of the encoder's loop, up to the slot. -/
def writeLeafRecord (prefixLen : Nat) (body : Bytes) (off : Nat) (r : Bytes × LeafValue) :
    Except NodeError Bytes := do
  let suffix ← bodyRange r.1 prefixLen r.1.length
  let suffixLen ← tryU16 suffix.length "suffix_len overflow"
  let body ← writeU16Le body off suffixLen
  let body ← writeBytes body (off + 2) suffix
  let afterKey := off + 2 + suffix.length
  match r.2 with
  | .inline val => do
    let valueLen ← tryU16 val.length "value_len overflow"
    let body ← writeU16Le body afterKey valueLen
    writeBytes body (afterKey + 2) val
  | .overflow totalLen rootPageId => do
    -- the assertion against wild roots
    require (FIRST_DATA_PAGE ≤ rootPageId) .panic
    let body ← writeU16Le body afterKey OVERFLOW_SENTINEL
    let body ← writeU64Le body (afterKey + 2) totalLen
    writeU64Le body (afterKey + 2 + 8) rootPageId

/-- `Leaf::encode`, into a buffer that is given. -/
def Leaf.encode (leaf : Leaf) (body : Bytes) : Except NodeError Bytes := do
  let cap := body.length
  let prefixBytes := lcp leaf.records
  let prefixLen := prefixBytes.length
  let slotCount := leaf.records.length
  let recordBytes := (leaf.records.map (leafRecordSize prefixLen)).sum
  require (HEADER_LEN + prefixLen + slotCount * 2 + recordBytes ≤ cap) .payloadTooLarge
  let slots ← tryU16 slotCount "slot_count overflow"
  let len ← tryU16 prefixLen "prefix_len overflow"
  let body ← writeHeader body .leaf slots len leaf.leftSibling leaf.rightSibling
  let body ← writeBytes body HEADER_LEN (List.replicate (cap - HEADER_LEN) 0)
  let body ← writeBytes body HEADER_LEN prefixBytes
  encodeRecords (leafRecordSize prefixLen) (writeLeafRecord prefixLen) prefixLen leaf.records 0 cap
    body

/-! ## §2. The accessor -/

/-- `cmp` of byte strings. -/
def cmpBytes (a b : Bytes) : Ordering := if a < b then .lt else if b < a then .gt else .eq

/-- `LeafValueLoc`. -/
inductive LeafValueLoc where
  | inline (start stop : Nat)
  | overflow (totalLen : Nat) (rootPageId : PageId)
  deriving DecidableEq, Repr

/-- `LeafAccessor`. -/
structure LeafAccessor where
  body : Bytes
  prefixLen : Nat
  slotCount : Nat
  deriving DecidableEq, Repr

namespace LeafAccessor

/-- `LeafAccessor::from_header`. -/
def fromHeader (body : Bytes) (h : NodeHeader) : Except NodeError LeafAccessor := do
  require (h.kind = .leaf) (.kindMismatch "leaf" "internal")
  pure { body, prefixLen := h.prefixLen, slotCount := h.slotCount }

/-- `LeafAccessor::from_guard`. -/
def fromGuard (body : Bytes) (memo : Bool) : Except NodeError LeafAccessor := do
  let (h, _) ← validateNodeBodyMemoised body memo
  fromHeader body h

/-- `LeafAccessor::prefix`. -/
def keyPrefix (acc : LeafAccessor) : Except NodeError Bytes :=
  bodyRange acc.body HEADER_LEN (HEADER_LEN + acc.prefixLen)

/-- `LeafAccessor::suffix`. -/
def suffix (acc : LeafAccessor) (idx : Nat) : Except NodeError Bytes := do
  let off ← slotOffset acc.body acc.prefixLen idx
  let suffixLen ← readU16Le acc.body off
  bodyRange acc.body (off + 2) (off + 2 + suffixLen)

/-- How `prefix ‖ suffix` compares to a query, as `cmp_slot_to_query` finds it. -/
def cmpParts (pre suffix query : Bytes) : Ordering :=
  let n := min pre.length query.length
  match cmpBytes (pre.take n) (query.take n) with
  | .eq =>
    if query.length ≤ pre.length then
      if query.length < pre.length ∨ suffix ≠ [] then .gt else .eq
    else cmpBytes suffix (query.drop pre.length)
  | nonEq => nonEq

/-- `LeafAccessor::cmp_slot_to_query`. -/
def cmpSlotToQuery (acc : LeafAccessor) (idx : Nat) (query : Bytes) : Except NodeError Ordering := do
  let pre ← acc.keyPrefix
  let suffix ← acc.suffix idx
  pure (cmpParts pre suffix query)

/-- The loop of `find`, with the turns it may take. -/
def findFrom (acc : LeafAccessor) (query : Bytes) : Nat → Nat → Nat → Except NodeError (Option Nat)
  | 0, _, _ => .ok none
  | turns + 1, lo, hi =>
    if lo < hi then do
      let mid := lo + (hi - lo) / 2
      match ← acc.cmpSlotToQuery mid query with
      | .lt => acc.findFrom query turns (mid + 1) hi
      | .gt => acc.findFrom query turns lo mid
      | .eq => .ok (some mid)
    else .ok none

/-- `LeafAccessor::find`.  The interval shrinks at every turn. -/
def find (acc : LeafAccessor) (query : Bytes) : Except NodeError (Option Nat) :=
  acc.findFrom query acc.slotCount 0 acc.slotCount

/-- `LeafAccessor::value_loc`. -/
def valueLoc (acc : LeafAccessor) (idx : Nat) : Except NodeError LeafValueLoc := do
  let off ← slotOffset acc.body acc.prefixLen idx
  let suffixLen ← readU16Le acc.body off
  let afterKey := off + 2 + suffixLen
  let valueLenRaw ← readU16Le acc.body afterKey
  if valueLenRaw = OVERFLOW_SENTINEL then do
    let totalLen ← readU64Le acc.body (afterKey + 2)
    let rootPageId ← readU64Le acc.body (afterKey + 2 + 8)
    pure (.overflow totalLen rootPageId)
  else
    pure (.inline (afterKey + 2) (afterKey + 2 + valueLenRaw))

/-- The value at a location: `body_slice` for one inside the body. -/
def valueAt (acc : LeafAccessor) : LeafValueLoc → Except NodeError LeafValue
  | .inline start stop => do
    let bytes ← bodyRange acc.body start stop
    pure (.inline bytes)
  | .overflow totalLen rootPageId => pure (.overflow totalLen rootPageId)

/-- A lookup in place, as `get` makes it: `find`, then `value_loc`. -/
def lookup (acc : LeafAccessor) (key : Bytes) : Except NodeError (Option LeafValue) := do
  match ← acc.find key with
  | none => pure none
  | some idx => do
    let loc ← acc.valueLoc idx
    let value ← acc.valueAt loc
    pure (some value)

end LeafAccessor

/-! ## §3. Comparing in place -/

section Compare

variable {x y : Bytes}

theorem cmpBytes_of_lt (h : x < y) : cmpBytes x y = .lt := if_pos h

theorem cmpBytes_of_gt (h : y < x) : cmpBytes x y = .gt := by
  unfold cmpBytes
  rw [if_neg h.not_gt, if_pos h]

@[simp] theorem cmpBytes_self (x : Bytes) : cmpBytes x x = .eq := by
  unfold cmpBytes
  rw [if_neg (lt_irrefl x), if_neg (lt_irrefl x)]

theorem cmpBytes_eq_eq : cmpBytes x y = .eq ↔ x = y := by
  rcases lt_trichotomy x y with hlt | rfl | hgt
  · rw [cmpBytes_of_lt hlt]
    exact ⟨fun h => (by cases h), fun h => absurd h hlt.ne⟩
  · rw [cmpBytes_self]
    exact ⟨fun _ => rfl, fun _ => rfl⟩
  · rw [cmpBytes_of_gt hgt]
    exact ⟨fun h => (by cases h), fun h => absurd h hgt.ne'⟩

theorem cmpBytes_cons (a b : UInt8) (x y : Bytes) :
    cmpBytes (a :: x) (b :: y) = if a < b then .lt else if b < a then .gt else cmpBytes x y := by
  unfold cmpBytes
  rcases lt_trichotomy a b with hlt | rfl | hgt
  · rw [if_pos (cons_lt_cons_iff.mpr (Or.inl hlt)), if_pos hlt]
  · simp
  · rw [if_neg hgt.not_gt, if_pos hgt, if_pos (cons_lt_cons_iff.mpr (Or.inl hgt))]
    rw [if_neg (not_lt_of_gt (cons_lt_cons_iff.mpr (Or.inl hgt)))]

/-- **The comparison in two parts is the comparison of the key.** -/
theorem LeafAccessor.cmpParts_eq (pre suffix query : Bytes) :
    cmpParts pre suffix query = cmpBytes (pre ++ suffix) query := by
  induction pre generalizing query with
  | nil =>
    unfold cmpParts
    dsimp only
    rw [length_nil, Nat.zero_min, take_zero, take_zero, cmpBytes_self]
    dsimp only
    cases query with
    | nil =>
      cases suffix with
      | nil => simp
      | cons a suffix => simpa using (cmpBytes_of_gt (nil_lt_cons a suffix)).symm
    | cons b query => simp
  | cons a pre ih =>
    cases query with
    | nil =>
      rw [cons_append, cmpBytes_of_gt (nil_lt_cons a _)]
      simp [cmpParts]
    | cons b query =>
      rw [cons_append, cmpBytes_cons, ← ih query]
      unfold cmpParts
      dsimp only
      rw [length_cons, length_cons, Nat.succ_min_succ, take_succ_cons,
        take_succ_cons, cmpBytes_cons]
      -- the first bytes decide, or drop out on both sides
      by_cases hlt : a < b
      · rw [if_pos hlt, if_pos hlt]
      · rw [if_neg hlt, if_neg hlt]
        by_cases hgt : b < a
        · rw [if_pos hgt, if_pos hgt]
        · rw [if_neg hgt, if_neg hgt]
          simp only [drop_succ_cons, Nat.succ_le_succ_iff, Nat.succ_lt_succ_iff]

end Compare

/-! ## §4. The accessor and the decoder -/

/-- The accessor shows the records of the leaf, slot by slot. -/
structure LeafAccessor.Agrees (acc : LeafAccessor) (leaf : Leaf) : Prop where
  count : acc.slotCount = leaf.records.length
  shows : ∀ i r, leaf.records[i]? = some r → ∃ pre suffix loc, acc.keyPrefix = .ok pre
    ∧ acc.suffix i = .ok suffix ∧ r.1 = pre ++ suffix
    ∧ acc.valueLoc i = .ok loc ∧ acc.valueAt loc = .ok r.2

/-- Binary search over the keys of the leaf. -/
def Leaf.search (leaf : Leaf) (query : Bytes) : Option Nat :=
  binaryFind (fun i => (leaf.records[i]?).elim .eq fun r => cmpBytes r.1 query)
    leaf.records.length 0 leaf.records.length

section Agreement

variable {acc : LeafAccessor} {leaf : Leaf} {body pre : Bytes} {off : Nat}

theorem LeafAccessor.Agrees.cmp (h : acc.Agrees leaf) {i : Nat} {r : Bytes × LeafValue}
    (hr : leaf.records[i]? = some r) (query : Bytes) :
    acc.cmpSlotToQuery i query = .ok (cmpBytes r.1 query) := by
  obtain ⟨pre, suffix, loc, hpre, hsuffix, hkey, -⟩ := h.shows i r hr
  unfold LeafAccessor.cmpSlotToQuery
  rw [ok_bind hpre, ok_bind hsuffix, LeafAccessor.cmpParts_eq, hkey]
  rfl

theorem LeafAccessor.Agrees.findFrom (h : acc.Agrees leaf) (query : Bytes) (turns : Nat) :
    ∀ lo hi, hi ≤ leaf.records.length → acc.findFrom query turns lo hi
      = .ok (binaryFind (fun i => (leaf.records[i]?).elim .eq fun r => cmpBytes r.1 query)
          turns lo hi) := by
  induction turns with
  | zero =>
    intro lo hi _
    rfl
  | succ turns ih =>
    intro lo hi hhi
    unfold LeafAccessor.findFrom binaryFind
    by_cases hlt : lo < hi
    · rw [if_pos hlt, if_pos hlt]
      dsimp only
      have hmid : lo + (hi - lo) / 2 < leaf.records.length := by omega
      have hr := getElem?_eq_getElem hmid
      rw [ok_bind (h.cmp hr query), hr, Option.elim_some]
      cases cmpBytes leaf.records[lo + (hi - lo) / 2].1 query with
      | lt => exact ih _ _ hhi
      | gt => exact ih _ _ (by omega)
      | eq => rfl
    · rw [if_neg hlt, if_neg hlt]

theorem LeafAccessor.Agrees.find (h : acc.Agrees leaf) (query : Bytes) :
    acc.find query = .ok (leaf.search query) := by
  unfold LeafAccessor.find
  rw [h.count]
  exact h.findFrom query _ _ _ (le_refl _)

theorem Leaf.search_eq_some {i : Nat} {query : Bytes} (h : leaf.search query = some i) :
    ∃ r, leaf.records[i]? = some r ∧ r.1 = query := by
  obtain ⟨-, hi, heq⟩ := binaryFind_eq_some _ h
  have hr := getElem?_eq_getElem hi
  rw [hr, Option.elim_some] at heq
  exact ⟨_, hr, cmpBytes_eq_eq.mp heq⟩

/-- In ascending records the search finds the key that is there. -/
theorem Leaf.search_around {key : Bytes} {left right : Records} {value : LeafValue}
    (hcut : Around key left right)
    (hrecords : leaf.records = around left key (some value) right) :
    leaf.search key = some left.length := by
  have hlist : leaf.records = left ++ (key, value) :: right := by
    rw [hrecords]
    simp [around]
  unfold Leaf.search
  rw [hlist]
  refine binaryFind_eq (fun i hi => ?_) ?_ _ _ _ (Nat.zero_le _) (by simp) (by omega)
    fun i hi hlt => ?_
  · rw [getElem?_append_left hi, getElem?_eq_getElem hi]
    exact cmpBytes_of_lt (hcut.lt _ (getElem_mem hi))
  · rw [getElem?_append_right (Nat.le_refl _), Nat.sub_self]
    exact cmpBytes_self key
  · rw [length_append, length_cons] at hlt
    obtain ⟨j, rfl⟩ : ∃ j, i = left.length + (j + 1) := ⟨i - left.length - 1, by omega⟩
    have hj : j < right.length := by omega
    rw [getElem?_append_right (by omega), Nat.add_sub_cancel_left, getElem?_cons_succ,
      getElem?_eq_getElem hj]
    exact cmpBytes_of_gt (hcut.gt _ (getElem_mem hj))

/-- **A lookup in place is a lookup in the decoded leaf.** -/
theorem LeafAccessor.Agrees.lookup (h : acc.Agrees leaf) (hasc : Ascending leaf.records)
    (key : Bytes) : acc.lookup key = .ok (leaf.get key) := by
  obtain ⟨left, value, right, hcut, hrecords⟩ := exists_around key hasc
  have hget : leaf.get key = value := by
    unfold Leaf.get
    rw [hrecords, binarySearch_around hcut value]
  unfold LeafAccessor.lookup
  rw [ok_bind (h.find key), hget]
  cases value with
  | some v =>
    have hslot : leaf.records[left.length]? = some (key, v) := by
      rw [hrecords]
      simp [around]
    obtain ⟨pre, suffix, loc, -, -, -, hloc, hvalue⟩ := h.shows _ _ hslot
    rw [Leaf.search_around hcut hrecords]
    dsimp only
    rw [ok_bind hloc, ok_bind hvalue]
    rfl
  | none =>
    have hnone : leaf.search key = none := by
      rw [Option.eq_none_iff_forall_not_mem]
      intro i hi
      obtain ⟨r, hr, hkey⟩ := Leaf.search_eq_some hi
      have hmem := mem_of_getElem? hr
      rw [hrecords] at hmem
      simp only [around, Option.map_none, Option.toList_none, append_nil] at hmem
      rcases mem_append.mp hmem with hmem | hmem
      · exact absurd hkey (hcut.lt r hmem).ne
      · exact absurd hkey (hcut.gt r hmem).ne'
    rw [hnone]
    rfl

/-- The decoder reads a record that lies inside the body, and the accessor finds it
    where the decoder does. -/
theorem decodeLeafRecord_of_in {suffixLen valueLenRaw i : Nat}
    (hin : LeafRecordIn body off suffixLen valueLenRaw) (pre : Bytes)
    (hslot : slotOffset acc.body acc.prefixLen i = .ok off) (hbody : acc.body = body) :
    ∃ suffix value loc, decodeLeafRecord body pre off = .ok (pre ++ suffix, value)
      ∧ acc.suffix i = .ok suffix ∧ acc.valueLoc i = .ok loc ∧ acc.valueAt loc = .ok value := by
  subst hbody
  have hlen := hin.inside
  have hsuffix : bodyRange acc.body (off + 2) (off + 2 + suffixLen)
      = .ok (slice acc.body (off + 2) suffixLen) := bodyRange_eq (by split at hlen <;> omega)
  have hfound : acc.suffix i = .ok (slice acc.body (off + 2) suffixLen) := by
    unfold LeafAccessor.suffix
    rw [ok_bind hslot, ok_bind hin.suffix, hsuffix]
  unfold decodeLeafRecord LeafAccessor.valueLoc
  rw [ok_bind hin.suffix, ok_bind hsuffix, ok_bind hin.value, ok_bind hslot, ok_bind hin.suffix]
  dsimp only
  rw [ok_bind hin.value]
  split_ifs at hlen with hsentinel
  · have htotal : readU64Le acc.body (off + 2 + suffixLen + 2) = _ := readLe_eq (by omega)
    have hroot : readU64Le acc.body (off + 2 + suffixLen + 2 + 8) = _ := readLe_eq (by omega)
    rw [if_pos hsentinel, if_pos hsentinel, ok_bind htotal,
      ok_bind hroot, ok_bind htotal, ok_bind hroot]
    exact ⟨_, _, _, rfl, hfound, rfl, rfl⟩
  · have hvalue := bodyRange_eq hlen
    rw [if_neg hsentinel, if_neg hsentinel, ok_bind hvalue]
    refine ⟨_, _, _, rfl, hfound, rfl, ?_⟩
    unfold LeafAccessor.valueAt
    dsimp only
    rw [ok_bind hvalue]
    rfl

/-- **An accepted leaf body decodes, and the accessor shows what the decoder returns.** -/
theorem Leaf.decode_of_valid {h : NodeHeader} (hvalid : validateNodeBody body = .ok h)
    (hkind : h.kind = .leaf) :
    ∃ leaf, Leaf.decode body = .ok leaf
      ∧ LeafAccessor.Agrees ⟨body, h.prefixLen, h.slotCount⟩ leaf := by
  obtain ⟨-, hdir, hslots⟩ := validateNodeBody_eq_ok.mp hvalid
  have hpre : bodyRange body HEADER_LEN (HEADER_LEN + h.prefixLen)
      = .ok (slice body HEADER_LEN h.prefixLen) := bodyRange_eq (by omega)
  have hrecord : ∀ i < h.slotCount, ∃ suffix value loc,
      (do let off ← slotOffset body h.prefixLen i
          decodeLeafRecord body (slice body HEADER_LEN h.prefixLen) off)
        = .ok (slice body HEADER_LEN h.prefixLen ++ suffix, value)
      ∧ LeafAccessor.suffix ⟨body, h.prefixLen, h.slotCount⟩ i = .ok suffix
      ∧ LeafAccessor.valueLoc ⟨body, h.prefixLen, h.slotCount⟩ i = .ok loc
      ∧ LeafAccessor.valueAt ⟨body, h.prefixLen, h.slotCount⟩ loc = .ok value := by
    intro i hi
    obtain ⟨off, hslot, hcheck⟩ := hslots i hi
    rw [hkind] at hcheck
    obtain ⟨suffixLen, valueLenRaw, hin⟩ := validateLeafRecord_eq_ok.mp hcheck
    rw [ok_bind hslot]
    exact decodeLeafRecord_of_in hin _ hslot rfl
  obtain ⟨records, hrecords⟩ := exists_mapM fun i hi => by
    obtain ⟨suffix, value, loc, hdecode, -⟩ := hrecord i (mem_range.mp hi)
    exact ⟨_, hdecode⟩
  obtain ⟨hcount, hall⟩ := mapM_range_eq_ok.mp hrecords
  refine ⟨⟨h.leftSibling, h.dualUse, records⟩, ?_, hcount.symm, fun i r hr => ?_⟩
  · unfold Leaf.decode
    rw [ok_bind hvalid, require_bind hkind, ok_bind hpre, ok_bind hrecords]
    rfl
  · have hi : i < h.slotCount := by
      rw [← hcount]
      exact (List.getElem?_eq_some_iff.mp hr).1
    obtain ⟨suffix, value, loc, hdecode, hsuffix, hloc, hvalue⟩ := hrecord i hi
    have heq := hall i r hr
    rw [hdecode] at heq
    obtain rfl := Except.ok.inj heq
    exact ⟨_, suffix, loc, hpre, hsuffix, rfl, hloc, hvalue⟩

end Agreement

/-! ## §5. The encoding -/

theorem takeWhile_zip_lead (x y : Bytes) :
    x.take ((x.zip y).takeWhile fun ab => ab.1 == ab.2).length <+: y
      ∧ ((x.zip y).takeWhile fun ab => ab.1 == ab.2).length ≤ x.length := by
  induction x generalizing y with
  | nil => exact ⟨List.nil_prefix, Nat.le_refl _⟩
  | cons a x ih =>
    cases y with
    | nil => exact ⟨List.nil_prefix, Nat.zero_le _⟩
    | cons b y =>
      rw [zip_cons_cons, takeWhile_cons]
      by_cases hab : a = b
      · subst hab
        rw [if_pos (beq_self_eq_true a), length_cons, take_succ_cons]
        obtain ⟨hpre, hlen⟩ := ih y
        exact ⟨cons_prefix_cons.mpr ⟨rfl, hpre⟩, Nat.succ_le_succ hlen⟩
      · rw [if_neg (by simpa using hab)]
        exact ⟨List.nil_prefix, Nat.zero_le _⟩

theorem lcp_length (records : Records) : (lcp records).length = lcpLen records := by
  cases records with
  | nil => rfl
  | cons r records =>
    obtain ⟨first, value⟩ := r
    show (first.take (lcpLen _)).length = _
    rw [length_take, Nat.min_eq_left]
    cases records with
    | nil => exact Nat.le_refl _
    | cons r records => exact (takeWhile_zip_lead first _).2

/-- **The keys begin with the common prefix**: those of the first and the last do, and
    the rest lies between them. -/
theorem lcp_lead {records : Records} (hasc : Ascending records) :
    ∀ r ∈ records, lcp records <+: r.1 := by
  cases records with
  | nil => exact nofun
  | cons e records =>
    obtain ⟨first, value⟩ := e
    have hfirst : lcp ((first, value) :: records) <+: first := take_prefix _ _
    cases records with
    | nil =>
      intro r hr
      rw [mem_singleton.mp hr]
      exact hfirst
    | cons e records =>
      obtain ⟨hbelow, hrest⟩ := pairwise_cons.mp hasc
      have hlast : lcp ((first, value) :: e :: records)
          <+: ((e :: records).getLast (cons_ne_nil _ _)).1 := (takeWhile_zip_lead first _).1
      intro r hr
      rcases mem_cons.mp hr with rfl | hr
      · exact hfirst
      · by_cases heq : r = (e :: records).getLast (cons_ne_nil _ _)
        · rw [heq]
          exact hlast
        · refine prefix_of_between hlast ?_ ?_
          · exact (prefix_le hfirst).trans (hbelow r hr).le
          · have hcut := dropLast_append_getLast (cons_ne_nil e records)
            rw [← hcut] at hrest hr
            rcases mem_append.mp hr with hr | hr
            · exact (pairwise_append.mp hrest).2.2 r hr _ (mem_singleton_self _)
            · exact absurd (mem_singleton.mp hr) heq

/-- The bytes of a value. -/
def LeafValue.encoded : LeafValue → Bytes
  | .inline val => leBytes 2 val.length ++ val
  | .overflow totalLen rootPageId =>
    leBytes 2 OVERFLOW_SENTINEL ++ (leBytes 8 totalLen ++ leBytes 8 rootPageId)

/-- The bytes of a record behind a prefix. -/
def leafRecordBytes (prefixLen : Nat) (r : Bytes × LeafValue) : Bytes :=
  leBytes 2 (r.1.drop prefixLen).length ++ (r.1.drop prefixLen ++ r.2.encoded)

/-- The value's fields are of their types, and its root is no reserved page. -/
def LeafValue.Sound : LeafValue → Prop
  | .inline _ => True
  | .overflow totalLen rootPageId =>
    totalLen ≤ U64_MAX ∧ rootPageId ≤ U64_MAX ∧ FIRST_DATA_PAGE ≤ rootPageId

/-- The value refers to no reserved page. -/
def LeafValue.NotWild : LeafValue → Prop
  | .inline _ => True
  | .overflow _ rootPageId => FIRST_DATA_PAGE ≤ rootPageId

theorem LeafValue.Sound.notWild {v : LeafValue} (h : v.Sound) : v.NotWild := by
  cases v with
  | inline val => trivial
  | overflow totalLen rootPageId => exact h.2.2

@[simp] theorem LeafValue.encoded_length (v : LeafValue) : v.encoded.length = v.encodedSize := by
  cases v with
  | inline val => simp [LeafValue.encoded, LeafValue.encodedSize]
  | overflow totalLen rootPageId =>
    simp [LeafValue.encoded, LeafValue.encodedSize, OVERFLOW_REF_ENCODED_SIZE]

@[simp] theorem leafRecordBytes_length (prefixLen : Nat) (r : Bytes × LeafValue) :
    (leafRecordBytes prefixLen r).length = leafRecordSize prefixLen r := by
  unfold leafRecordBytes leafRecordSize
  simp only [length_append, leBytes_length, length_drop, LeafValue.encoded_length]
  omega

/-- The writes of a record are one. -/
theorem writeLeafRecord_eq {prefixLen : Nat} {r : Bytes × LeafValue}
    (hpre : prefixLen ≤ r.1.length) (hsize : leafRecordSize prefixLen r ≤ U16_MAX)
    (hwild : r.2.NotWild) (body : Bytes) (off : Nat) :
    writeLeafRecord prefixLen body off r = writeBytes body off (leafRecordBytes prefixLen r) := by
  have hsuffix : bodyRange r.1 prefixLen r.1.length = .ok (r.1.drop prefixLen) := by
    unfold bodyRange
    rw [if_pos ⟨hpre, Nat.le_refl _⟩]
    unfold slice
    rw [take_of_length_le (by rw [length_drop])]
  unfold leafRecordSize at hsize
  unfold writeLeafRecord
  rw [ok_bind hsuffix, ok_bind (tryU16_eq (by
    rw [length_drop]
    omega))]
  unfold writeU16Le
  rw [writeBytes_append _ _ _ _ (by rw [leBytes_length])]
  obtain ⟨key, value⟩ := r
  cases value with
  | inline val =>
    have hval : val.length ≤ U16_MAX := by
      have hpart : (LeafValue.inline val).encodedSize = 2 + val.length := rfl
      dsimp only at hsize
      omega
    dsimp only
    simp only [ok_bind (tryU16_eq hval)]
    rw [writeBytes_append, writeBytes_last]
    · unfold leafRecordBytes LeafValue.encoded
      simp only [append_assoc]
    all_goals
      simp only [length_append, leBytes_length]
      omega
  | overflow totalLen rootPageId =>
    dsimp only
    simp only [require_bind (show FIRST_DATA_PAGE ≤ rootPageId from hwild)]
    unfold writeU64Le
    rw [writeBytes_append, writeBytes_append, writeBytes_last]
    · unfold leafRecordBytes LeafValue.encoded
      simp only [append_assoc]
    all_goals
      simp only [length_append, leBytes_length]
      omega

/-- The header of an encoded leaf. -/
def Leaf.header (leaf : Leaf) : NodeHeader where
  kind := .leaf
  slotCount := leaf.records.length
  prefixLen := lcpLen leaf.records
  leftSibling := leaf.leftSibling
  dualUse := leaf.rightSibling

/-- The encoded leaf, as a slotted page. -/
def Leaf.page (leaf : Leaf) (cap : Nat) : Bytes :=
  slotted cap (leaf.header.bytes ++ lcp leaf.records)
    (leaf.records.map (leafRecordBytes (lcpLen leaf.records)))

/-- The fields of the leaf are of their types, and it refers to no reserved page. -/
structure Leaf.Sound (leaf : Leaf) : Prop where
  leftSibling : leaf.leftSibling ≤ U64_MAX
  rightSibling : leaf.rightSibling ≤ U64_MAX
  values : ∀ r ∈ leaf.records, r.2.Sound

section Encoding

variable {leaf : Leaf} {cap : Nat} {buffer : Bytes}

/-- What the encoder needs, as the sizes of the page's parts. -/
theorem Leaf.slottedFits_iff (leaf : Leaf) (cap : Nat) :
    SlottedFits cap (leaf.header.bytes ++ lcp leaf.records)
        (leaf.records.map (leafRecordBytes (lcpLen leaf.records)))
      ↔ leafNeeded leaf.records ≤ cap := by
  unfold SlottedFits
  rw [length_append, NodeHeader.bytes_length, lcp_length, length_map,
    length_flatten, map_map, Nat.mul_comm 2]
  have hsizes : (List.length ∘ leafRecordBytes (lcpLen leaf.records))
      = leafRecordSize (lcpLen leaf.records) := funext fun r => leafRecordBytes_length _ r
  rw [hsizes]
  rfl

theorem Leaf.recordSize_le (leaf : Leaf) (hcap : cap ≤ U16_MAX)
    (hfits : leafNeeded leaf.records ≤ cap) :
    ∀ r ∈ leaf.records, leafRecordSize (lcpLen leaf.records) r ≤ U16_MAX := by
  intro r hr
  have hone : leafRecordSize (lcpLen leaf.records) r
      ≤ (leaf.records.map (leafRecordSize (lcpLen leaf.records))).sum :=
    le_sum_of_mem (mem_map_of_mem hr)
  unfold leafNeeded at hfits
  omega

theorem Leaf.encode_refuses (leaf : Leaf) (h : buffer.length < leafNeeded leaf.records) :
    leaf.encode buffer = .error .payloadTooLarge := by
  unfold leafNeeded at h
  unfold Leaf.encode require
  dsimp only
  rw [lcp_length, if_neg (Nat.not_le.mpr h)]
  rfl

/-- **A leaf that fits is encoded as a slotted page.** -/
theorem Leaf.encode_eq (hasc : Ascending leaf.records) (hwild : ∀ r ∈ leaf.records, r.2.NotWild)
    (hcap : buffer.length ≤ U16_MAX) (hfits : leafNeeded leaf.records ≤ buffer.length) :
    leaf.encode buffer = .ok (leaf.page buffer.length) := by
  have hslotted := (leaf.slottedFits_iff buffer.length).mpr hfits
  have hsize := leaf.recordSize_le hcap hfits
  unfold leafNeeded at hfits
  unfold Leaf.encode
  dsimp only
  rw [lcp_length, require_bind hfits, ok_bind (tryU16_eq (by omega)),
    ok_bind (tryU16_eq (by omega))]
  have hlen : HEADER_LEN ≤ buffer.length := by omega
  refine (writeHeader_zeros leaf.header hlen _).trans ?_
  have hroom : leaf.header.bytes.length + (lcp leaf.records).length ≤ buffer.length := by
    rw [NodeHeader.bytes_length, lcp_length]
    omega
  have hpre := writePrefix_eq hroom
  rw [NodeHeader.bytes_length] at hpre
  rw [ok_bind hpre]
  refine encodeRecords_eq ?_ hcap leaf.records [] (fun r _ => (leafRecordBytes_length _ r).symm)
    (fun r hr body off => ?_) hslotted
  · rw [length_append, NodeHeader.bytes_length, lcp_length]
  · refine writeLeafRecord_eq ?_ (hsize r hr) (hwild r hr) body off
    rw [← lcp_length]
    exact (lcp_lead hasc r hr).length_le

theorem Leaf.header_sized (hsound : leaf.Sound) (hcap : cap ≤ U16_MAX)
    (hfits : leafNeeded leaf.records ≤ cap) : leaf.header.Sized where
  slotCount := by
    show leaf.records.length ≤ U16_MAX
    unfold leafNeeded at hfits
    omega
  prefixLen := by
    show lcpLen leaf.records ≤ U16_MAX
    unfold leafNeeded at hfits
    omega
  leftSibling := hsound.leftSibling
  dualUse := hsound.rightSibling

/-- A record that was written lies inside the body and is decoded. -/
theorem decodeLeafRecord_of_hasAt {body : Bytes} (pre : Bytes) {prefixLen off : Nat}
    {r : Bytes × LeafValue}
    (hsize : leafRecordSize prefixLen r ≤ U16_MAX) (hsound : r.2.Sound)
    (hpage : HasAt body off (leafRecordBytes prefixLen r)) :
    validateLeafRecord body off = .ok ()
      ∧ decodeLeafRecord body pre off = .ok (pre ++ r.1.drop prefixLen, r.2) := by
  have hinside := hpage.inside
  unfold leafRecordBytes at hpage hinside
  unfold leafRecordSize at hsize
  have hdrop : (r.1.drop prefixLen).length ≤ U16_MAX := by
    rw [length_drop]
    omega
  have hlen : readU16Le body off = .ok (r.1.drop prefixLen).length :=
    readU16Le_of_hasAt hpage.left hdrop
  have hrest := hpage.right
  rw [leBytes_length] at hrest
  have hsuffix := bodyRange_of_hasAt hrest.left
  have hvalue := hrest.right
  unfold decodeLeafRecord
  rw [validateLeafRecord_eq_ok, ok_bind hlen, ok_bind hsuffix]
  obtain ⟨key, value⟩ := r
  cases value with
  | inline val =>
    have hval : val.length < U16_MAX := by
      have hpart : (LeafValue.inline val).encodedSize = 2 + val.length := rfl
      dsimp only at hsize
      omega
    have hne : ¬ val.length = OVERFLOW_SENTINEL := fun heq => by
      rw [heq] at hval
      exact absurd hval (by decide)
    unfold LeafValue.encoded at hvalue hinside
    have hraw : readU16Le body (off + 2 + (key.drop prefixLen).length) = .ok val.length :=
      readU16Le_of_hasAt hvalue.left hval.le
    have hbytes := bodyRange_of_hasAt hvalue.right
    rw [leBytes_length] at hbytes
    rw [ok_bind hraw, if_neg hne, ok_bind hbytes]
    refine ⟨⟨_, _, hlen, hraw, ?_⟩, rfl⟩
    rw [if_neg hne]
    simpa [Nat.add_assoc] using hinside
  | overflow totalLen rootPageId =>
    unfold LeafValue.encoded at hvalue hinside
    have hraw : readU16Le body (off + 2 + (key.drop prefixLen).length) = .ok OVERFLOW_SENTINEL :=
      readU16Le_of_hasAt hvalue.left (by decide)
    have hfields := hvalue.right
    rw [leBytes_length] at hfields
    have htotal : readU64Le body (off + 2 + (key.drop prefixLen).length + 2) = .ok totalLen :=
      readU64Le_of_hasAt hfields.left hsound.1
    have hlast := hfields.right
    rw [leBytes_length] at hlast
    have hroot : readU64Le body (off + 2 + (key.drop prefixLen).length + 2 + 8)
        = .ok rootPageId := readU64Le_of_hasAt hlast hsound.2.1
    rw [ok_bind hraw, if_pos rfl, ok_bind htotal, ok_bind hroot]
    refine ⟨⟨_, _, hlen, hraw, ?_⟩, rfl⟩
    rw [if_pos rfl]
    simpa [Nat.add_assoc] using hinside

/-- **The page of a leaf is accepted, and decodes to the leaf.** -/
theorem Leaf.decode_page (hasc : Ascending leaf.records) (hsound : leaf.Sound)
    (hcap : cap ≤ U16_MAX) (hfits : leafNeeded leaf.records ≤ cap) :
    validateNodeBody (leaf.page cap) = .ok leaf.header ∧ Leaf.decode (leaf.page cap) = .ok leaf := by
  have hslotted := (leaf.slottedFits_iff cap).mpr hfits
  have hlen : (leaf.page cap).length = cap := slotted_length hslotted
  have hsize := leaf.recordSize_le hcap hfits
  -- each slot leads to its record
  have hslot : ∀ i r, leaf.records[i]? = some r → ∃ off,
      slotOffset (leaf.page cap) (lcpLen leaf.records) i = .ok off
        ∧ validateLeafRecord (leaf.page cap) off = .ok ()
        ∧ decodeLeafRecord (leaf.page cap) (lcp leaf.records) off = .ok r := by
    intro i r hr
    have hmem := mem_of_getElem? hr
    have hrecord : (leaf.records.map (leafRecordBytes (lcpLen leaf.records)))[i]?
        = some (leafRecordBytes (lcpLen leaf.records) r) := by
      rw [getElem?_map, hr]
      rfl
    obtain ⟨off, hoff, hat⟩ := slotOffset_slotted hcap hslotted hrecord
    rw [lcp_length] at hoff
    obtain ⟨hcheck, hdecode⟩ := decodeLeafRecord_of_hasAt (lcp leaf.records) (hsize r hmem)
      (hsound.values r hmem) hat
    refine ⟨off, hoff, hcheck, hdecode.trans ?_⟩
    obtain ⟨rest, hkey⟩ := lcp_lead hasc r hmem
    rw [← lcp_length, ← hkey, drop_left, hkey]
  have hvalid : validateNodeBody (leaf.page cap) = .ok leaf.header := by
    refine validateNodeBody_eq_ok.mpr ⟨?_, ?_, fun i hi => ?_⟩
    · exact readHeader_of_hasAt (leaf.header_sized hsound hcap hfits) (hasAt_header _ _ _ _)
    · rw [hlen]
      show HEADER_LEN + lcpLen leaf.records + leaf.records.length * 2 ≤ cap
      exact (Nat.le_add_right _ _).trans hfits
    · obtain ⟨off, hoff, hcheck, -⟩ := hslot i _ (getElem?_eq_getElem hi)
      exact ⟨off, hoff, hcheck⟩
  have hpre := bodyRange_of_hasAt (hasAt_pre leaf.header cap (lcp leaf.records)
    (leaf.records.map (leafRecordBytes (lcpLen leaf.records))))
  rw [lcp_length] at hpre
  have hrecords : (List.range leaf.records.length).mapM (fun i => do
      let off ← slotOffset (leaf.page cap) (lcpLen leaf.records) i
      decodeLeafRecord (leaf.page cap) (lcp leaf.records) off) = .ok leaf.records := by
    refine mapM_range_eq_ok.mpr ⟨rfl, fun i r hr => ?_⟩
    obtain ⟨off, hoff, -, hdecode⟩ := hslot i r hr
    rw [ok_bind hoff, hdecode]
  refine ⟨hvalid, ?_⟩
  unfold Leaf.decode
  rw [ok_bind hvalid, require_bind (show leaf.header.kind = .leaf from rfl)]
  rw [ok_bind (show bodyRange (leaf.page cap) HEADER_LEN
    (HEADER_LEN + leaf.header.prefixLen) = .ok (lcp leaf.records) from hpre)]
  exact ok_bind hrecords

end Encoding

/-! ## §6. Codec and accessor together -/

theorem LeafAccessor.fromGuard_eq {body : Bytes} {h : NodeHeader}
    (hvalid : validateNodeBody body = .ok h) (hkind : h.kind = .leaf) (memo : Bool) :
    LeafAccessor.fromGuard body memo = .ok ⟨body, h.prefixLen, h.slotCount⟩ := by
  unfold LeafAccessor.fromGuard
  rw [ok_bind (validateNodeBodyMemoised_eq hvalid memo)]
  dsimp only
  unfold LeafAccessor.fromHeader
  rw [require_bind hkind]
  rfl

theorem sliceFits_iff {records : Records} {pageSize : Nat} :
    sliceFits records pageSize = true ↔ leafNeeded records ≤ bodyCapacity pageSize :=
  decide_eq_true_iff

theorem bodyCapacity_le (ps : Segment.PageSize) : bodyCapacity ps.bytes ≤ U16_MAX := by
  have hle := ps.le
  have hmax : U16_MAX = 65535 := by decide
  unfold bodyCapacity ENVELOPE_OVERHEAD
  omega

/-- **Codec and accessor agree.**  A leaf with ascending keys that refers to no
    reserved page is encoded exactly if it fits, otherwise refused for its size.  The
    encoding is accepted, decodes to the leaf, and a lookup in place finds what a lookup
    in the leaf does. -/
theorem leaf_codec_agrees (ps : Segment.PageSize) {leaf : Leaf} (hasc : Ascending leaf.records)
    (hsound : leaf.Sound) {buffer : Bytes} (hbuffer : buffer.length = bodyCapacity ps.bytes) :
    (sliceFits leaf.records ps.bytes = true → ∃ body, leaf.encode buffer = .ok body)
      ∧ (sliceFits leaf.records ps.bytes = false → leaf.encode buffer = .error .payloadTooLarge)
      ∧ ∀ body, leaf.encode buffer = .ok body →
        (∃ h, validateNodeBody body = .ok h) ∧ Leaf.decode body = .ok leaf
          ∧ ∀ memo, ∃ acc, LeafAccessor.fromGuard body memo = .ok acc
            ∧ ∀ key, acc.lookup key = .ok (leaf.get key) := by
  have hcap : buffer.length ≤ U16_MAX := hbuffer ▸ bodyCapacity_le ps
  have hwild : ∀ r ∈ leaf.records, r.2.NotWild := fun r hr => (hsound.values r hr).notWild
  have hneeded : sliceFits leaf.records ps.bytes = true
      ↔ leafNeeded leaf.records ≤ buffer.length := by
    rw [hbuffer]
    exact sliceFits_iff
  have hrefused : sliceFits leaf.records ps.bytes = false →
      leaf.encode buffer = .error .payloadTooLarge := by
    intro hsmall
    refine leaf.encode_refuses (Nat.lt_of_not_le fun hfits => ?_)
    rw [hneeded.mpr hfits] at hsmall
    cases hsmall
  refine ⟨fun hfits => ⟨_, Leaf.encode_eq hasc hwild hcap (hneeded.mp hfits)⟩, hrefused,
    fun body hencode => ?_⟩
  have hfits : sliceFits leaf.records ps.bytes = true := by
    by_contra hno
    rw [hrefused (Bool.eq_false_iff.mpr hno)] at hencode
    cases hencode
  rw [Leaf.encode_eq hasc hwild hcap (hneeded.mp hfits)] at hencode
  obtain rfl := Except.ok.inj hencode
  obtain ⟨hvalid, hdecode⟩ := Leaf.decode_page hasc hsound hcap (hneeded.mp hfits)
  refine ⟨⟨_, hvalid⟩, hdecode, fun memo => ?_⟩
  refine ⟨_, LeafAccessor.fromGuard_eq hvalid rfl memo, fun key => ?_⟩
  obtain ⟨leaf', hleaf', hagrees⟩ := Leaf.decode_of_valid hvalid rfl
  rw [hdecode] at hleaf'
  obtain rfl := Except.ok.inj hleaf'
  exact hagrees.lookup hasc key

/-- Two keys with a common prefix, one value inline and one in a chain. -/
def twoRecords : Leaf where
  leftSibling := 7
  rightSibling := 9
  records := [([1, 2, 3], .inline [5]), ([1, 2, 4], .overflow 5000 6)]

theorem leaf_codec_agrees_two_records :
    ∃ body, twoRecords.encode (List.replicate 4056 0) = .ok body
      ∧ Leaf.decode body = .ok twoRecords := by
  have hsound : twoRecords.Sound := by
    refine ⟨by decide, by decide, fun r hr => ?_⟩
    rcases mem_cons.mp hr with rfl | hr
    · exact trivial
    · rw [mem_singleton.mp hr]
      exact ⟨by decide, by decide, by decide⟩
  have h := leaf_codec_agrees ⟨4096, 12, rfl⟩ (by decide) hsound
    (show (List.replicate 4056 (0 : UInt8)).length = bodyCapacity 4096 from length_replicate)
  obtain ⟨body, hbody⟩ := h.1 (by decide)
  exact ⟨body, hbody, (h.2.2 body hbody).2.1⟩

/-- **A record of a reserved page fits and is not encoded**: the encoder panics. -/
theorem reserved_root_fits_and_panics :
    ∃ leaf : Leaf, Ascending leaf.records ∧ sliceFits leaf.records 4096 = true
      ∧ leaf.encode (List.replicate 4056 0) = .error .panic := by
  refine ⟨⟨0, 0, [([1], .overflow 5000 2)]⟩, by decide, by decide, ?_⟩
  decide +kernel

end Pagedb
