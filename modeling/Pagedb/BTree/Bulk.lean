/-
  Pagedb.BTree.Bulk — the bulk loader (`btree/tree/bulk/loader.rs`,
  `btree/tree/bulk/loader/batch.rs`, `btree/tree/bulk/levels.rs`).

  Records come in ascending order.  They fill one leaf, the leaves fill one
  branch per level, and whatever is full is written and handed to the level
  above.  A loader call is a program over the tree's session and the loader.
-/
import Pagedb.BTree.Tree

namespace Pagedb

/-! ## §1. Levels -/

/-- A child for the level above: its page and the first key below it. -/
abbrev Child := PageId × Bytes

/-- `separator_entry_size`. -/
def separatorEntrySize (keyLen : Nat) : Except TreeError Nat :=
  if keyLen > U16_MAX then .error .payloadTooLarge
  else .ok (keyLen + SEPARATOR_RECORD_OVERHEAD + SLOT_DIRECTORY_ENTRY_SIZE)

/-- `LevelAccum`: the branch under construction at one level. -/
structure LevelAccum where
  children : List Child
  used : Nat
  total : Nat
  deriving DecidableEq, Repr

namespace LevelAccum

/-- `LevelAccum::new`. -/
def new : LevelAccum where
  children := []
  used := HEADER_LEN
  total := 0

/-- `sole_child`. -/
def soleChild (a : LevelAccum) : Option PageId :=
  if a.total = 1 then a.children.head?.map Prod.fst else none

/-- `try_push`: the level with the child buffered, or `none` if it is full. -/
def tryPush (a : LevelAccum) (child : Child) (bodyCap : Nat) :
    Except TreeError (Option LevelAccum) :=
  -- the leftmost child is named by the header and costs nothing
  if a.children.isEmpty then .ok (some { a with children := [child], total := a.total + 1 })
  else do
    let entrySize ← separatorEntrySize child.2.length
    let needed := a.used + entrySize
    if needed > bodyCap then
      if a.children.length = 1 then .error .payloadTooLarge else .ok none
    else .ok (some { children := a.children ++ [child], used := needed, total := a.total + 1 })

/-- `restart`. -/
def restart (a : LevelAccum) (child : Child) : LevelAccum where
  children := [child]
  used := HEADER_LEN
  total := a.total + 1

/-- `take_node`: the branch with its own separator, and the level without it. -/
def takeNode (a : LevelAccum) : Option (Internal × Bytes) × LevelAccum :=
  match a.children with
  | [] => (none, a)
  | (leftmostChild, separator) :: rest =>
    (some ({ leftmostChild, entries := rest.map fun c => (c.2, c.1) }, separator),
      { a with children := [], used := HEADER_LEN })

end LevelAccum

/-! ## §2. The loader -/

/-- `BulkLoader`.  Its `body_cap` and `inline_threshold` are functions of the page
    size. -/
structure BulkLoader where
  lastKey : Option Bytes
  leafRecords : Records
  leafUsed : Nat
  leafPageId : Option PageId
  leftSibling : PageId
  leafCount : Nat
  firstLeafPageId : PageId
  levels : List LevelAccum

/-- `BulkLoader::new`. -/
def BulkLoader.new : BulkLoader where
  lastKey := none
  leafRecords := []
  leafUsed := HEADER_LEN
  leafPageId := none
  leftSibling := 0
  leafCount := 0
  firstLeafPageId := 0
  levels := []

/-- The loader and the tree it builds. -/
structure Loading where
  tree : Session
  loader : BulkLoader

/-- A program on a loader. -/
abbrev LoadM := EStateM TreeError Loading

/-- A step on the tree alone. -/
def stepTree {α : Type} (x : TreeM α) : LoadM α := fun st =>
  match x st.tree with
  | .ok a s => .ok a { st with tree := s }
  | .error e s => .error e { st with tree := s }

/-- A step on the loader alone. -/
def stepLoader (f : BulkLoader → BulkLoader) : LoadM Unit :=
  modify fun st => { st with loader := f st.loader }

/-- `flush_if_dirty_budget`.  A flush moves buffered pages to the file, where a read
    finds them as before; what shows of it is that it may fail. -/
def flushIfDirtyBudget : TreeM Unit := await

/-- The levels up to `level`. -/
def BulkLoader.grow (level : Nat) (l : BulkLoader) : BulkLoader :=
  { l with levels := l.levels ++ List.replicate (level + 1 - l.levels.length) LevelAccum.new }

/-- `levels[level] = a`. -/
def BulkLoader.setLevel (level : Nat) (a : LevelAccum) (l : BulkLoader) : BulkLoader :=
  { l with levels := l.levels.set level a }

/-- The loop of `push_child`.  A level that did not exist takes any child, so the
    levels bound the turns. -/
def pushChildFrom : Nat → Nat → Child → LoadM Unit
  | 0, _, _ => throw .diverges
  | turns + 1, level, child => do
    stepLoader (BulkLoader.grow level)
    let st ← get
    match st.loader.levels[level]? with
    | none => throw .panic
    | some accum =>
      match accum.tryPush child (bodyCapacity st.tree.pageSize) with
      | .error e => throw e
      | .ok (some pushed) => stepLoader (BulkLoader.setLevel level pushed)
      | .ok none =>
        match accum.takeNode with
        | (none, _) => throw .io
        | (some (node, separator), taken) => do
          stepLoader (BulkLoader.setLevel level (taken.restart child))
          let pageId ← stepTree allocatePage
          stepTree (writeInternal pageId node)
          stepTree flushIfDirtyBudget
          pushChildFrom turns (level + 1) (pageId, separator)

/-- `push_child`. -/
def pushChild (level : Nat) (child : Child) : LoadM Unit := do
  pushChildFrom ((← get).loader.levels.length + 1) level child

/-- The page of the leaf under construction: the reserved one, else a new one. -/
def takeLeafPage : LoadM PageId := do
  match (← get).loader.leafPageId with
  | some reserved => do
    stepLoader fun l => { l with leafPageId := none }
    pure reserved
  | none => stepTree allocatePage

/-- The right sibling of a leaf: the page reserved for the next one, if one
    follows. -/
def reserveNext (moreRecords : Bool) : LoadM PageId :=
  if moreRecords then do
    let next ← stepTree allocatePage
    stepLoader fun l => { l with leafPageId := some next }
    pure next
  else pure 0

/-- `close_leaf`. -/
def closeLeaf (moreRecords : Bool) : LoadM Unit := do
  let pageId ← takeLeafPage
  let rightSibling ← reserveNext moreRecords
  let l := (← get).loader
  stepLoader fun l => { l with leafRecords := [] }
  stepTree (writeLeaf pageId
    { leftSibling := l.leftSibling, rightSibling, records := l.leafRecords })
  stepTree flushIfDirtyBudget
  stepLoader fun l => { l with
    leftSibling := pageId
    leafUsed := HEADER_LEN
    firstLeafPageId := if l.leafCount = 0 then pageId else l.firstLeafPageId
    leafCount := l.leafCount + 1 }
  pushChild 0 (pageId, (l.leafRecords.head?.map Prod.fst).getD [])

/-! ## §3. Records -/

/-- `leaf_record_cost`. -/
def leafRecordCost (keyLen : Nat) (value : LeafValue) : Nat := 2 + 2 + keyLen + value.encodedSize

/-- How many leading bytes two keys share. -/
def sharedPrefix (a b : Bytes) : Nat := ((a.zip b).takeWhile fun ab => ab.1 == ab.2).length

/-- `projected_encoded_size`. -/
def projectedEncodedSize (l : BulkLoader) (key : Bytes) (cost : Nat) : Except TreeError Nat :=
  let uncompressed := l.leafUsed + cost
  match l.leafRecords with
  | [] => .ok uncompressed
  | (firstKey, _) :: _ =>
    let saving := l.leafRecords.length * sharedPrefix firstKey key
    if saving ≤ uncompressed then .ok (uncompressed - saving) else .error .payloadTooLarge

/-- `append_record`. -/
def appendRecord (key value : Bytes) : LoadM Unit := do
  let stored ← stepTree (leafValueFor value)
  let cost := leafRecordCost key.length stored
  let st ← get
  match projectedEncodedSize st.loader key cost with
  | .error e => throw e
  | .ok projected => do
    if projected > bodyCapacity st.tree.pageSize && !st.loader.leafRecords.isEmpty then
      closeLeaf true
    else pure ()
    stepLoader fun l => { l with
      leafUsed := l.leafUsed + cost
      lastKey := some key
      leafRecords := l.leafRecords ++ [(key, stored)] }

/-- The loop over the records of a batch. -/
def appendRecords : List (Bytes × Bytes) → LoadM Unit
  | [] => pure ()
  | (key, value) :: batch => do
    appendRecord key value
    appendRecords batch

/-- `validate_order`. -/
def validateOrder : Option Bytes → List (Bytes × Bytes) → TreeM Unit
  | _, [] => pure ()
  | prior, (key, _) :: batch =>
    if prior.any fun last => decide (key ≤ last) then throw .bulkLoadNotMonotonic
    else validateOrder (some key) batch

/-- The size check of every record of a batch. -/
def validateSizes : List (Bytes × Bytes) → TreeM Unit
  | [] => pure ()
  | (key, value) :: batch => do
    validateInsertRecordFits key value
    validateSizes batch

/-- `prevalidate`. -/
def prevalidate (lastKey : Option Bytes) (batch : List (Bytes × Bytes)) : TreeM Unit := do
  validateOrder lastKey batch
  validateSizes batch

/-- `BulkLoader::push_batch`. -/
def pushBatch (batch : List (Bytes × Bytes)) : LoadM Unit := do
  stepTree (prevalidate (← get).loader.lastKey batch)
  appendRecords batch
  stepTree flushIfDirtyBudget

/-! ## §4. Finishing -/

/-- Publish the root. -/
def setRoot (root : PageId) : TreeM Unit := modify fun s => { s with rootPageId := root }

/-- The loop of `finish`.  Every level has seen fewer children than the one below
    it, so the leaves bound the turns. -/
def finishFrom : Nat → Nat → LoadM Unit
  | 0, _ => throw .diverges
  | turns + 1, level => do
    match (← get).loader.levels[level]? with
    | none => throw .io
    | some accum =>
      match accum.soleChild with
      | some root => stepTree (setRoot root)
      | none =>
        match accum.takeNode with
        | (none, _) => throw .io
        | (some (node, separator), taken) => do
          stepLoader (BulkLoader.setLevel level taken)
          let pageId ← stepTree allocatePage
          stepTree (writeInternal pageId node)
          stepTree flushIfDirtyBudget
          pushChild (level + 1) (pageId, separator)
          finishFrom turns (level + 1)

/-- Close the last leaf, if there is one. -/
def closeLast : LoadM Unit := do
  if (← get).loader.leafRecords.isEmpty then pure () else closeLeaf false

/-- `BulkLoader::finish`. -/
def finish : LoadM Unit := do
  closeLast
  let l := (← get).loader
  if l.leafCount = 0 then pure ()
  else if l.leafCount = 1 then stepTree (setRoot l.firstLeafPageId)
  else finishFrom l.leafCount 0

/-- The batches in order. -/
def pushBatches : List (List (Bytes × Bytes)) → LoadM Unit
  | [] => pure ()
  | batch :: batches => do
    pushBatch batch
    pushBatches batches

/-- A loader's program from its creation on. -/
def withLoader (x : LoadM Unit) : TreeM Unit := fun s =>
  match x ⟨s, BulkLoader.new⟩ with
  | .ok a st => .ok a st.tree
  | .error e st => .error e st.tree

/-- A whole bulk load: `bulk_loader`, a `push_batch` for every batch, `finish`. -/
def bulkLoad (batches : List (List (Bytes × Bytes))) : TreeM Unit := do
  if (← get).rootPageId = 0 then
    withLoader do
      pushBatches batches
      finish
  else throw .io

end Pagedb
