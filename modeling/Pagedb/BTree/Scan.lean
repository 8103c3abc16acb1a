/-
  Pagedb.BTree.Scan — scans, appends and batches
  (`btree/tree/{scan,navigate,write}.rs`).

  Every scan walks from leaf to leaf through the parents: up to the first
  ancestor with a child further on, then down that child's near edge.  What the
  scans do with the records they meet is all that tells them apart.
-/
import Pagedb.BTree.Tree

namespace Pagedb

/-! ## §1. Leaves and their neighbours -/

/-- `read_leaf`. -/
def readLeaf (id : PageId) : TreeM Leaf := do
  let s ← get
  match s.freshLeaves.lookup id with
  | some leaf => pure leaf
  | none =>
    match s.dirtyLeaves.lookup id with
    | some leaf => pure leaf
    | none => decodeLeafFromPager id

/-- The internal node at an ancestor. -/
def readAncestor (id : PageId) : TreeM Internal := do
  match ← readNodeGuard id with
  | .inl _ => throw .illegalPageKind
  | .inr node => pure node

/-- `right_sibling_child`. -/
def Internal.rightSiblingChild (node : Internal) (child : PageId) : Option PageId :=
  if node.leftmostChild = child then node.entries.head?.map Prod.snd
  else
    match node.entries.dropWhile fun e => e.2 ≠ child with
    | _ :: next :: _ => some next.2
    | _ => none

/-- `left_sibling_child`. -/
def Internal.leftSiblingChild (node : Internal) (child : PageId) : Option PageId :=
  if node.leftmostChild = child then none
  else
    match node.entries.dropWhile fun e => e.2 ≠ child with
    | [] => none
    | _ :: _ =>
      some (((node.entries.takeWhile fun e => e.2 ≠ child).getLast?.map Prod.snd).getD
        node.leftmostChild)

/-- The upward half of `next_leaf_after` and `prev_leaf_before`; `ancestors`
    nearest first.  Returns the path down to the ancestor that has a child beyond
    the walk, and that child. -/
def climb (sibling : Internal → PageId → Option PageId) :
    List PageId → PageId → TreeM (Option (List PageId × PageId))
  | [], _ => pure none
  | p :: up, child => do
    let node ← readAncestor p
    match sibling node child with
    | some next => pure (some ((p :: up).reverse, next))
    | none => climb sibling up p

/-- The leaf next to the one at the end of `path`.  The page guard of the
    downward half starts from the whole old path, which a descent found to be
    free of repeats; the new path starts from the part they share. -/
def neighbourLeaf (sibling : Internal → PageId → Option PageId) (edge : Internal → PageId)
    (path : List PageId) : TreeM (Option (List PageId)) := do
  match path.getLast? with
  | none => throw .panic
  | some leaf => do
    match ← climb sibling path.dropLast.reverse leaf with
    | none => pure none
    | some (common, next) => do
      let (full, _) ← descendFrom edge ((← get).pager.pageCount + 1) path next
      pure (some (common ++ full.drop path.length))

/-- The rightmost child of a node. -/
def Internal.rightmostChild (node : Internal) : PageId :=
  (node.entries.getLast?.map Prod.snd).getD node.leftmostChild

/-- `next_leaf_after`. -/
def nextLeafAfter : List PageId → TreeM (Option (List PageId)) :=
  neighbourLeaf Internal.rightSiblingChild Internal.leftmostChild

/-- `prev_leaf_before`. -/
def prevLeafBefore : List PageId → TreeM (Option (List PageId)) :=
  neighbourLeaf Internal.leftSiblingChild Internal.rightmostChild

/-- `path_to_rightmost_leaf`. -/
def pathToRightmostLeaf : TreeM (List PageId) := do
  let (path, _) ← descend Internal.rightmostChild
  pure path

/-- `max_key_at_path`. -/
def maxKeyAtPath (path : List PageId) : TreeM (Option Bytes) := do
  match path.getLast? with
  | none => throw .panic
  | some id => do
    let leaf ← readLeaf id
    pure (leaf.records.getLast?.map Prod.fst)

/-- `LeafBounds`. -/
structure LeafBounds where
  lower : Option Bytes
  upper : Option Bytes
  deriving DecidableEq, Repr

/-- `LeafBounds::contains`. -/
def LeafBounds.contains (b : LeafBounds) (key : Bytes) : Bool :=
  b.lower.all (fun lower => decide (lower ≤ key)) && b.upper.all fun upper => decide (key < upper)

/-- What one ancestor adds to the bounds: the nearest ancestor wins. -/
def Internal.bound (node : Internal) (child : PageId) (b : LeafBounds) : LeafBounds :=
  if node.leftmostChild = child then
    { b with upper := b.upper.or (node.entries.head?.map Prod.fst) }
  else
    match node.entries.dropWhile fun e => e.2 ≠ child with
    | [] => b
    | e :: rest =>
      { lower := b.lower.or (some e.1), upper := b.upper.or (rest.head?.map Prod.fst) }

/-- The loop of `separator_bounds_for_path`; `ancestors` nearest first. -/
def separatorBoundsFrom : List PageId → PageId → LeafBounds → TreeM LeafBounds
  | [], _, b => pure b
  | p :: up, child, b => do
    let node ← readAncestor p
    let b := node.bound child b
    if b.lower.isSome && b.upper.isSome then pure b else separatorBoundsFrom up p b

/-- `separator_bounds_for_path`. -/
def separatorBoundsForPath (path : List PageId) : TreeM LeafBounds := do
  match path.getLast? with
  | none => throw .panic
  | some leaf => separatorBoundsFrom path.dropLast.reverse leaf { lower := none, upper := none }

/-! ## §2. Scans -/

/-- How many leaves a scan can meet: pages of the pager and fresh leaves. -/
def Session.leafBound (s : Session) : Nat := s.pager.pageCount + s.freshLeaves.entries.length + 1

/-- `resolve_leaf_value`. -/
def resolveLeafValue : LeafValue → TreeM Bytes
  | .inline v => pure v
  | .overflow totalLen rootPageId => readChain rootPageId totalLen

/-- A scan from leaf to leaf: how it moves on, in which order it takes a leaf's
    records, what it does with a record, when it returns behind a leaf, and how
    it checks a leaf against its neighbour.  The flag of a visit says that the
    scan returns. -/
structure LeafScan (σ : Type) where
  next : List PageId → TreeM (Option (List PageId))
  order : Records → Records
  visit : σ → Bytes × LeafValue → TreeM (σ × Bool)
  full : σ → Bool
  agrees : Leaf → Option (List PageId) → Bool

/-- The records of one leaf. -/
def LeafScan.visitAll {σ : Type} (sc : LeafScan σ) : Records → σ → TreeM (σ × Bool)
  | [], out => pure (out, false)
  | r :: records, out => do
    let (out, done) ← sc.visit out r
    if done then pure (out, true) else sc.visitAll records out

/-- The loop of a scan.  `seen` is the guard against a leaf met twice. -/
def LeafScan.loop {σ : Type} (sc : LeafScan σ) : Nat → List PageId → List PageId → σ → TreeM σ
  | 0, _, _, _ => throw .pageChainCycle
  | turns + 1, seen, path, out => do
    match path.getLast? with
    | none => throw .panic
    | some id =>
      if id ∈ seen then throw .pageChainCycle
      else do
        let leaf ← readLeaf id
        let (out, done) ← sc.visitAll (sc.order leaf.records) out
        if done || sc.full out then pure out
        else do
          let next ← sc.next path
          if sc.agrees leaf next then
            match next with
            | none => pure out
            | some next => sc.loop turns (id :: seen) next out
          else throw .leafSiblingMismatch

/-- A scan to the right that goes by the parents alone. -/
def LeafScan.forward {σ : Type} (visit : σ → Bytes × LeafValue → TreeM (σ × Bool)) : LeafScan σ where
  next := nextLeafAfter
  order := fun records => records
  visit := visit
  full := fun _ => false
  agrees := fun _ _ => true

/-- A scan to the left. -/
def LeafScan.backward {σ : Type} (visit : σ → Bytes × LeafValue → TreeM (σ × Bool)) : LeafScan σ where
  next := prevLeafBefore
  order := List.reverse
  visit := visit
  full := fun _ => false
  agrees := fun _ _ => true

/-- A scan from the leaf at the end of `path` on. -/
def LeafScan.walk {σ : Type} (sc : LeafScan σ) (path : List PageId) (out : σ) : TreeM σ := do
  let s ← get
  sc.loop s.leafBound [] path out

/-- What the scans have collected. -/
abbrev Found := List (Bytes × Bytes)

/-- Take a record with its value. -/
def pushRecord (out : Found) (r : Bytes × LeafValue) : TreeM Found := do
  let value ← resolveLeafValue r.2
  pure (out ++ [(r.1, value)])

/-- What `collect_range` does with a record. -/
def visitRange (start stop : Bytes) (out : Found) (r : Bytes × LeafValue) : TreeM (Found × Bool) :=
  if stop ≤ r.1 then pure (out, true)
  else if start ≤ r.1 then do
    let out ← pushRecord out r
    pure (out, false)
  else pure (out, false)

/-- `collect_range`. -/
def collectRange (start stop : Bytes) : TreeM Found := do
  if (← get).rootPageId = 0 then pure []
  else do
    let path ← pathToLeafForKey start
    (LeafScan.forward (visitRange start stop)).walk path []

/-- What `collect_all` does with a record. -/
def visitAny (out : Found) (r : Bytes × LeafValue) : TreeM (Found × Bool) := do
  let out ← pushRecord out r
  pure (out, false)

/-- `collect_all`. -/
def collectAll : TreeM Found := do
  if (← get).rootPageId = 0 then pure []
  else do
    let path ← pathToLeafForKey []
    (LeafScan.forward visitAny).walk path []

/-- What `collect_batch_from` does with a record. -/
def visitBatch (start : Bytes) (limit : Nat) (out : Found) (r : Bytes × LeafValue) :
    TreeM (Found × Bool) :=
  if r.1 < start then pure (out, false)
  else if out.length = limit then pure (out, true)
  else do
    let out ← pushRecord out r
    pure (out, false)

/-- `collect_batch_from`: the one scan that also returns behind a leaf. -/
def collectBatchFrom (start : Bytes) (limit : Nat) : TreeM Found := do
  if (← get).rootPageId = 0 ∨ limit = 0 then pure []
  else do
    let path ← pathToLeafForKey start
    LeafScan.walk { LeafScan.forward (visitBatch start limit) with
      full := fun out => decide (out.length = limit) } path []

/-- `collect_prefix_batch_from`: a batch, cut off at the first key without the
    leading bytes. -/
def collectPrefixBatchFrom (lead start : Bytes) (limit : Nat) : TreeM Found := do
  let batch ← collectBatchFrom start limit
  pure (batch.takeWhile fun r => lead.isPrefixOf r.1)

/-- What `collect_rev_batch_before` does with a record. -/
def visitBefore (before : Option Bytes) (limit : Nat) (out : Found) (r : Bytes × LeafValue) :
    TreeM (Found × Bool) :=
  if before.any fun before => decide (before ≤ r.1) then pure (out, false)
  else do
    let out ← pushRecord out r
    pure (out, decide (out.length = limit))

/-- Where `collect_rev_batch_before` starts. -/
def pathBefore : Option Bytes → TreeM (List PageId)
  | some before => pathToLeafForKey before
  | none => pathToRightmostLeaf

/-- `collect_rev_batch_before`. -/
def collectRevBatchBefore (before : Option Bytes) (limit : Nat) : TreeM Found := do
  if (← get).rootPageId = 0 ∨ limit = 0 then pure []
  else do
    let path ← pathBefore before
    (LeafScan.backward (visitBefore before limit)).walk path []

/-- `scan_rev`. -/
def scanRev (start stop : Bytes) : TreeM Found := do
  let forward ← collectRange start stop
  pure forward.reverse

/-- What `scan_prefix` does with a record. -/
def visitPrefix (lead : Bytes) (out : Found) (r : Bytes × LeafValue) : TreeM (Found × Bool) :=
  if r.1 < lead then pure (out, false)
  else if lead.isPrefixOf r.1 then do
    let out ← pushRecord out r
    pure (out, false)
  else pure (out, true)

/-- `scan_prefix`. -/
def scanPrefix (lead : Bytes) : TreeM Found := do
  if (← get).rootPageId = 0 then pure []
  else do
    let path ← pathToLeafForKey lead
    (LeafScan.forward (visitPrefix lead)).walk path []

/-- `ScanLimit`. -/
inductive ScanLimit where
  | records
  | bytes
  deriving DecidableEq, Repr

/-- `ScanBatch`. -/
structure ScanBatch where
  entries : Found
  limit : Option ScanLimit
  deriving DecidableEq, Repr

/-- The length a leaf states for a value, without reading it. -/
def LeafValue.len : LeafValue → Nat
  | .inline v => v.length
  | .overflow totalLen _ => totalLen

/-- What `collect_prefix_batch_bounded` does with a record; the number is
    `used_bytes`.  It is unbounded here: a `checked_add` that fails is past every
    `max_bytes`. -/
def visitBounded (lead start : Bytes) (maxRecords maxBytes : Nat) (out : ScanBatch × Nat)
    (r : Bytes × LeafValue) : TreeM ((ScanBatch × Nat) × Bool) :=
  if r.1 < start then pure (out, false)
  else if ¬ lead.isPrefixOf r.1 then pure (out, true)
  else if out.1.entries.length = maxRecords then
    pure (({ out.1 with limit := some .records }, out.2), true)
  else if maxBytes < out.2 + (r.1.length + r.2.len) then
    pure (({ out.1 with limit := some .bytes }, out.2), true)
  else do
    let entries ← pushRecord out.1.entries r
    pure (({ out.1 with entries }, out.2 + (r.1.length + r.2.len)), false)

/-- `collect_prefix_batch_bounded`. -/
def collectPrefixBatchBounded (lead start : Bytes) (maxRecords maxBytes : Nat) :
    TreeM ScanBatch := do
  if (← get).rootPageId = 0 then pure { entries := [], limit := none }
  else do
    let start := max start lead
    let path ← pathToLeafForKey start
    let (batch, _) ← (LeafScan.forward (visitBounded lead start maxRecords maxBytes)).walk path
      ({ entries := [], limit := none }, 0)
    pure batch

/-- What `collect_keys_batch_in_range` does with a record: it never reads a
    value. -/
def visitKeys (start stop : Bytes) (limit : Nat) (out : List Bytes) (r : Bytes × LeafValue) :
    TreeM (List Bytes × Bool) :=
  if stop ≤ r.1 then pure (out, true)
  else if start ≤ r.1 then pure (out ++ [r.1], decide ((out ++ [r.1]).length = limit))
  else pure (out, false)

/-- `collect_keys_batch_in_range`.  A sibling link that is set has to agree with
    the parents. -/
def collectKeysBatchInRange (start stop : Bytes) (limit : Nat) : TreeM (List Bytes) := do
  if (← get).rootPageId = 0 ∨ limit = 0 then pure []
  else do
    let path ← pathToLeafForKey start
    LeafScan.walk { LeafScan.forward (visitKeys start stop limit) with
      agrees := fun leaf next =>
        decide (leaf.rightSibling = 0 ∨ next.bind List.getLast? = some leaf.rightSibling) } path []

/-- `first_key`: the first record of the leaf where the empty key belongs. -/
def firstKey : TreeM (Option Bytes) := do
  if (← get).rootPageId = 0 then pure none
  else do
    let path ← pathToLeafForKey []
    match path.getLast? with
    | none => throw .panic
    | some id => do
      let leaf ← readLeaf id
      pure (leaf.records.head?.map Prod.fst)

/-- `last_key`: the last record of the rightmost leaf. -/
def lastKey : TreeM (Option Bytes) := do
  if (← get).rootPageId = 0 then pure none
  else do
    let path ← pathToRightmostLeaf
    maxKeyAtPath path

/-! ## §3. Appends and batches -/

/-- The monotonicity check against the last appended key. -/
def checkAppendKey (key : Bytes) (last : Option Bytes) : TreeM Unit :=
  if last.any fun last => decide (key ≤ last) then throw .appendNotMonotonic else pure ()

/-- The first record of an empty tree, by append. -/
def putAppendFirst (key value : Bytes) : TreeM Unit := do
  let leafValue ← leafValueFor value
  let newRoot ← allocatePage
  writeLeaf newRoot (Leaf.new.upsert key leafValue).1
  modify fun s => { s with
    rootPageId := newRoot
    appendLastKey := some key
    appendCachedPath := some [newRoot] }

/-- The cached rightmost path, or a descent to it. -/
def appendPath : TreeM (List PageId) := do
  match (← get).appendCachedPath with
  | some cached => pure cached
  | none => pathToRightmostLeaf

/-- The check of a first append against the largest key of the rightmost leaf. -/
def checkAppendMax (path : List PageId) (key : Bytes) : TreeM Unit := do
  if (← get).appendLastKey.isNone then do
    checkAppendKey key (← maxKeyAtPath path)
  else pure ()

/-- `BTree::put_append`. -/
def treePutAppend (key value : Bytes) : TreeM Unit := do
  checkAppendKey key (← get).appendLastKey
  validateInsertRecordFits key value
  if (← get).rootPageId = 0 then putAppendFirst key value
  else do
    let path ← appendPath
    checkAppendMax path key
    modify fun s => { s with appendCachedPath := none }
    let leafValue ← leafValueFor value
    let split ← putAtPath path key leafValue
    modify fun s => { s with
      appendLastKey := some key
      appendCachedPath := if split then none else some path }

/-- A cached leaf path if the key lies within its bounds, else a descent. -/
def reuseOrDescend (key : Bytes) (cached : Option (List PageId × LeafBounds)) :
    TreeM (List PageId × LeafBounds) := do
  match cached.filter fun c => c.2.contains key with
  | some reusable => pure reusable
  | none => do
    let path ← pathToLeafForKey key
    let bounds ← separatorBoundsForPath path
    pure (path, bounds)

/-- The loop of `put_batch`. -/
def putBatchFrom : List (Bytes × Bytes) → Option (List PageId × LeafBounds) → TreeM Unit
  | [], _ => pure ()
  | (key, value) :: pairs, cached => do
    validateInsertRecordFits key value
    if (← get).rootPageId = 0 then do
      treePut key value
      putBatchFrom pairs cached
    else do
      let (path, bounds) ← reuseOrDescend key cached
      let leafValue ← leafValueFor value
      let split ← putAtPath path key leafValue
      putBatchFrom pairs (if split then none else some (path, bounds))

/-- `BTree::put_batch`. -/
def treePutBatch (pairs : List (Bytes × Bytes)) : TreeM Unit := do
  invalidateAppendState
  putBatchFrom pairs none

/-- The loop of `delete_batch`. -/
def deleteBatchFrom : List Bytes → Option (List PageId × LeafBounds) → TreeM Unit
  | [], _ => pure ()
  | key :: keys, cached => do
    let (path, bounds) ← reuseOrDescend key cached
    let _ ← deleteAtPath path key
    deleteBatchFrom keys (some (path, bounds))

/-- `BTree::delete_batch`. -/
def treeDeleteBatch (keys : List Bytes) : TreeM Unit := do
  invalidateAppendState
  if (← get).rootPageId = 0 then pure () else deleteBatchFrom keys none

/-- `DELETE_RANGE_CHUNK`. -/
def DELETE_RANGE_CHUNK : Nat := 1024

/-- How many records the session holds in pages and cached leaves. -/
def Session.recordBound (s : Session) : Nat :=
  ((s.pager.dirty ++ s.pager.disk).map fun e =>
      match e.2 with
      | .leaf leaf => leaf.records.length
      | _ => 0).sum
    + (s.freshLeaves.toList.map fun e => e.2.records.length).sum
    + (s.dirtyLeaves.toList.map fun e => e.2.records.length).sum

/-- The loop of `delete_range`.  Every turn but the last deletes a full chunk. -/
def deleteRangeFrom (stop : Bytes) : Nat → Bytes → Nat → TreeM Nat
  | 0, _, _ => throw .diverges
  | turns + 1, cursor, removed => do
    let keys ← collectKeysBatchInRange cursor stop DELETE_RANGE_CHUNK
    match keys.getLast? with
    | none => pure removed
    | some last => do
      treeDeleteBatch keys
      if keys.length < DELETE_RANGE_CHUNK then pure (removed + keys.length)
      else deleteRangeFrom stop turns (last ++ [0]) (removed + keys.length)

/-- `BTree::delete_range`. -/
def treeDeleteRange (start stop : Bytes) : TreeM Nat := do
  let s ← get
  if s.rootPageId = 0 then pure 0 else deleteRangeFrom stop (s.recordBound + 1) start 0

end Pagedb
