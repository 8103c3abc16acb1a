/-
  Pagedb.BTree.Node — decoded nodes (`btree/leaf.rs`, `btree/internal.rs`,
  `btree/split.rs`, `btree/node.rs`).

  Nodes are modelled as they are decoded.  The encoders only ever fail on size,
  and size is what decides a split, so the encoded sizes are part of the model.
-/
import Pagedb.Basic
import Pagedb.Lib.SortedRecords
import Pagedb.Lib.TreeContext

namespace Pagedb

open List

/-! ## §1. Encoded sizes -/

/-- `ENVELOPE_OVERHEAD`: page header and tag. -/
def ENVELOPE_OVERHEAD : Nat := 40

/-- `HEADER_LEN` of a node body. -/
def HEADER_LEN : Nat := 24

/-- `OVERFLOW_REF_ENCODED_SIZE`. -/
def OVERFLOW_REF_ENCODED_SIZE : Nat := 2 + 8 + 8

/-- `SEPARATOR_RECORD_OVERHEAD`. -/
def SEPARATOR_RECORD_OVERHEAD : Nat := 2 + 8

/-- `SLOT_DIRECTORY_ENTRY_SIZE`. -/
def SLOT_DIRECTORY_ENTRY_SIZE : Nat := 2

/-- `u16::MAX`. -/
def U16_MAX : Nat := 2 ^ 16 - 1

/-- `body_capacity`. -/
def bodyCapacity (pageSize : Nat) : Nat := pageSize - ENVELOPE_OVERHEAD

/-- `inline_value_threshold`. -/
def inlineValueThreshold (pageSize : Nat) : Nat := pageSize / 4

/-- `LeafValue`. -/
inductive LeafValue where
  | inline (bytes : Bytes)
  | overflow (totalLen : Nat) (rootPageId : PageId)
  deriving DecidableEq, Repr

/-- `LeafValue::encoded_size`. -/
def LeafValue.encodedSize : LeafValue → Nat
  | .inline v => 2 + v.length
  | .overflow _ _ => OVERFLOW_REF_ENCODED_SIZE

/-- The records of a leaf. -/
abbrev Records := List (Bytes × LeafValue)

/-- `lcp_len`: the records are sorted, so the first and the last key bracket
    the rest. -/
def lcpLen : Records → Nat
  | [] => 0
  | [(k, _)] => k.length
  | (first, _) :: r :: records =>
    let last := ((r :: records).getLast (cons_ne_nil _ _)).1
    ((first.zip last).takeWhile fun ab => ab.1 == ab.2).length

/-- `Leaf::slice_fits`. -/
def sliceFits (records : Records) (pageSize : Nat) : Bool :=
  let prefixLen := lcpLen records
  let recordBytes := (records.map fun r => 2 + (r.1.length - prefixLen) + r.2.encodedSize).sum
  HEADER_LEN + prefixLen + records.length * 2 + recordBytes ≤ bodyCapacity pageSize

/-- `Leaf::single_record_fits_encoded`. -/
def singleRecordFitsEncoded (keyLen valueEncodedSize pageSize : Nat) : Bool :=
  keyLen ≤ U16_MAX && HEADER_LEN + keyLen + 2 + 2 + valueEncodedSize ≤ bodyCapacity pageSize

/-- `separator_fits`. -/
def separatorFits (keyLen pageSize : Nat) : Bool :=
  keyLen ≤ U16_MAX && HEADER_LEN + (keyLen + SEPARATOR_RECORD_OVERHEAD + SLOT_DIRECTORY_ENTRY_SIZE)
      ≤ bodyCapacity pageSize

/-- `stored_leaf_value_encoded_size`. -/
def storedLeafValueEncodedSize (valueLen pageSize : Nat) : Nat :=
  if valueLen > inlineValueThreshold pageSize then OVERFLOW_REF_ENCODED_SIZE else 2 + valueLen

/-! ## §2. Sorted slices -/

/-- `binary_search_by` on a sorted slice, as the cut it finds: the elements
    before the key, the value at the key, the elements after it. -/
def binarySearch {α : Type} (key : Bytes) (l : List (Bytes × α)) :
    List (Bytes × α) × Option α × List (Bytes × α) :=
  let left := l.takeWhile fun e => decide (e.1 < key)
  match l.dropWhile fun e => decide (e.1 < key) with
  | [] => (left, none, [])
  | e :: rest => if e.1 = key then (left, some e.2, rest) else (left, none, e :: rest)

/-- Replace the value at the key, or insert it where the key belongs. -/
def upsertSorted {α : Type} (key : Bytes) (value : α) (l : List (Bytes × α)) : List (Bytes × α) :=
  let (left, _, right) := binarySearch key l
  left ++ (key, value) :: right

section Sorted

variable {α : Type} {key : Bytes} {left right : List (Bytes × α)}

/-- A search finds the cut at its key. -/
theorem binarySearch_around (h : Lib.Around key left right) (value : Option α) :
    binarySearch key (Lib.around left key value right) = (left, value, right) := by
  have hleft : ∀ e ∈ left, decide (e.1 < key) = true := fun e he => decide_eq_true (h.lt e he)
  have hright : ∀ e ∈ right, ¬ e.1 < key := fun e he => not_lt_of_gt (h.gt e he)
  unfold binarySearch Lib.around
  cases value with
  | none =>
    rw [Option.map_none, Option.toList_none, append_nil,
      takeWhile_append_of_pos hleft, dropWhile_append_of_pos hleft]
    cases right with
    | nil => simp
    | cons e right =>
      have he : decide (e.1 < key) = false := decide_eq_false (hright e mem_cons_self)
      have hne : e.1 ≠ key := ne_of_gt (h.gt e mem_cons_self)
      simp [he, hne]
  | some v =>
    rw [Option.map_some, Option.toList_some, append_assoc,
      takeWhile_append_of_pos hleft, dropWhile_append_of_pos hleft]
    simp

theorem upsertSorted_around (h : Lib.Around key left right) (old : Option α) (value : α) :
    upsertSorted key value (Lib.around left key old right)
      = Lib.around left key (some value) right := by
  unfold upsertSorted
  rw [binarySearch_around h old]
  show left ++ (key, value) :: right = left ++ [(key, value)] ++ right
  rw [append_assoc]
  rfl

end Sorted

/-! ## §3. Leaves -/

/-- `Leaf`. -/
structure Leaf where
  leftSibling : PageId
  rightSibling : PageId
  records : Records
  deriving DecidableEq, Repr

/-- `Leaf::new`. -/
def Leaf.new : Leaf where
  leftSibling := 0
  rightSibling := 0
  records := []

/-- `Leaf::get`. -/
def Leaf.get (leaf : Leaf) (key : Bytes) : Option LeafValue := (binarySearch key leaf.records).2.1

/-- `Leaf::upsert`, with the value it replaced. -/
def Leaf.upsert (leaf : Leaf) (key : Bytes) (value : LeafValue) : Leaf × Option LeafValue :=
  ({ leaf with records := upsertSorted key value leaf.records },
    (binarySearch key leaf.records).2.1)

/-- `Leaf::remove`, with the value it removed. -/
def Leaf.remove (leaf : Leaf) (key : Bytes) : Leaf × Option LeafValue :=
  let (left, old, right) := binarySearch key leaf.records
  ({ leaf with records := left ++ right }, old)

/-- `Leaf::fits`. -/
def Leaf.fits (leaf : Leaf) (pageSize : Nat) : Bool := sliceFits leaf.records pageSize

/-! ## §4. Internal nodes -/

/-- `Internal`. -/
structure Internal where
  leftmostChild : PageId
  entries : List (Bytes × PageId)
  deriving DecidableEq, Repr

/-- `Internal::fits`. -/
def Internal.fits (node : Internal) (pageSize : Nat) : Bool :=
  HEADER_LEN + node.entries.length * 2 + (node.entries.map fun e => 2 + e.1.length + 8).sum
    ≤ bodyCapacity pageSize

/-- `Internal::upsert`. -/
def Internal.upsert (node : Internal) (key : Bytes) (rightChild : PageId) : Internal :=
  { node with entries := upsertSorted key rightChild node.entries }

/-- `InternalAccessor::child_for`. -/
def Internal.childFor (node : Internal) (query : Bytes) : PageId :=
  let n := node.entries.length
  let lo := Lib.partitionPoint (fun i => (node.entries[i]?).any fun e => decide (e.1 ≤ query)) n 0 n
  if lo = 0 then node.leftmostChild
  else (node.entries[lo - 1]?).elim node.leftmostChild Prod.snd

/-- Give the first entry that links to `old` the child `new`. -/
def repointEntries (old new : PageId) : List (Bytes × PageId) → List (Bytes × PageId)
  | [] => []
  | e :: entries => if e.2 = old then (e.1, new) :: entries else e :: repointEntries old new entries

/-- The one child link that named `old` names `new`, as both
    `propagate_split_up` and `cow_internal_repointing_child` do it. -/
def Internal.repoint (node : Internal) (old new : PageId) : Internal :=
  if node.leftmostChild = old then { node with leftmostChild := new }
  else { node with entries := repointEntries old new node.entries }

/-- The children of the node. -/
def Internal.children (node : Internal) : List PageId :=
  node.leftmostChild :: node.entries.map Prod.snd

/-- `Internal::split`: both halves and the promoted key. -/
def Internal.split (node : Internal) : Option (Internal × Internal × Bytes) :=
  let mid := node.entries.length / 2
  match node.entries.drop mid with
  | [] => none
  | (promoted, rightLeftmost) :: rest =>
    some ({ node with entries := node.entries.take mid },
      { leftmostChild := rightLeftmost, entries := rest }, promoted)

/-! ## §5. Splitting a leaf -/

/-- The walk of `split_leaf` from a split point.  Where it goes depends on the
    point alone, so a walk that has not stopped after one turn per point never
    stops: `none`. -/
def splitPointFrom (fits : Nat → Bool × Bool) (total : Nat) : Nat → Nat → Option Nat
  | 0, _ => none
  | turns + 1, splitAt =>
    let splitAt := max (min splitAt (total - 1)) 1
    let (leftFits, rightFits) := fits splitAt
    if leftFits && rightFits then some splitAt
    else if !leftFits && splitAt > 1 then splitPointFrom fits total turns (splitAt - 1)
    else if !rightFits && splitAt < total - 1 then splitPointFrom fits total turns (splitAt + 1)
    else some splitAt

/-- The split point of `split_leaf`. -/
def splitPoint (records : Records) (monotonic : Bool) (pageSize : Nat) : Option Nat :=
  let total := records.length
  let start := if monotonic then max (min (total * 9 / 10) (total - 1)) 1 else total / 2
  splitPointFrom
    (fun i => (sliceFits (records.take i) pageSize, sliceFits (records.drop i) pageSize))
    total (total + 1) start

/-- `split_leaf`.  `none` where the source loops for ever or indexes an empty
    right half. -/
def splitLeaf (leaf : Leaf) (monotonic : Bool) (pageSize : Nat) : Option (Leaf × Leaf × Bytes) := do
  let splitAt ← splitPoint leaf.records monotonic pageSize
  let right := leaf.records.drop splitAt
  let sep ← right.head?
  return ({ leaf with rightSibling := 0, records := leaf.records.take splitAt },
    { leftSibling := 0, rightSibling := 0, records := right }, sep.1)

end Pagedb
