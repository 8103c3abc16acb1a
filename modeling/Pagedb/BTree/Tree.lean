/-
  Pagedb.BTree.Tree — lookup, insert, delete and flush of the copy-on-write
  tree (`btree/tree/{read,write,navigate,flush}.rs`).

  A page of the tree is looked up in three layers: leaves created by splits
  (`freshLeaves`), leaves changed in place (`dirtyLeaves`), pages of the pager.
-/
import Pagedb.BTree.Overflow

namespace Pagedb

/-! ## §1. Descent -/

/-- The descent loop of `path_to_leaf_for_key`, `get_from_node` and the edge
    walks, which take the child `pick` names.  It returns the path and the leaf
    a lookup sees there.  A repeated page or a zero link ends the walk, so the
    pages the pager holds bound the turns. -/
def descendFrom (pick : Internal → PageId) : Nat → List PageId → PageId → TreeM (List PageId × Leaf)
  | 0, _, _ => throw .pageChainCycle
  | turns + 1, path, id =>
    if id = 0 ∨ id ∈ path then throw .pageChainCycle
    else do
      let s ← get
      match s.freshLeaves.lookup id with
      -- a fresh leaf has no page in the pager yet
      | some leaf => pure (path ++ [id], leaf)
      | none =>
        match ← readNodeGuard id with
        -- a dirty leaf shadows its page
        | .inl page => pure (path ++ [id], (s.dirtyLeaves.lookup id).getD page)
        | .inr node => descendFrom pick turns (path ++ [id]) (pick node)

/-- A descent from the root. -/
def descend (pick : Internal → PageId) : TreeM (List PageId × Leaf) := do
  let s ← get
  descendFrom pick (s.pager.pageCount + 1) [] s.rootPageId

/-- `path_to_leaf_for_key`. -/
def pathToLeafForKey (key : Bytes) : TreeM (List PageId) := do
  let (path, _) ← descend fun node => node.childFor key
  pure path

/-! ## §2. Lookup -/

/-- The bytes of a value found in a leaf. -/
def resolveValue : Option LeafValue → TreeM (Option Bytes)
  | none => pure none
  | some (.inline v) => pure (some v)
  | some (.overflow totalLen rootPageId) => do
    let v ← readChain rootPageId totalLen
    pure (some v)

/-- `BTree::get`. -/
def treeGet (key : Bytes) : TreeM (Option Bytes) := do
  let s ← get
  if s.rootPageId = 0 then pure none
  else do
    let (_, leaf) ← descend fun node => node.childFor key
    resolveValue (leaf.get key)

/-! ## §3. Cached leaves -/

/-- `invalidate_append_state`. -/
def invalidateAppendState : TreeM Unit :=
  modify fun s => { s with appendCachedPath := none, appendLastKey := none }

/-- `ensure_leaf_dirty`; `ancestors` is the path without the leaf. -/
def ensureLeafDirty (id : PageId) (ancestors : List PageId) : TreeM Unit := do
  let s ← get
  if (s.dirtyLeaves.lookup id).isSome then pure ()
  else do
    let leaf ← decodeLeafFromPager id
    modify fun s => { s with
      dirtyLeaves := s.dirtyLeaves.insert id leaf
      scheduledFrees := s.scheduledFrees ++ [id]
      dirtyParentPaths := s.dirtyParentPaths.insert id ancestors }

/-- `cached_leaf_mut`, read side. -/
def cachedLeaf (id : PageId) (fresh : Bool) : TreeM Leaf := do
  let s ← get
  match if fresh then s.freshLeaves.lookup id else s.dirtyLeaves.lookup id with
  | none => throw .panic
  | some leaf => pure leaf

/-- `cached_leaf_mut`, write side. -/
def setCachedLeaf (id : PageId) (fresh : Bool) (leaf : Leaf) : TreeM Unit :=
  modify fun s =>
    if fresh then { s with freshLeaves := s.freshLeaves.insert id leaf }
    else { s with dirtyLeaves := s.dirtyLeaves.insert id leaf }

/-- Bring the leaf at the end of a path into a cache: whether it is a fresh
    leaf, and its content. -/
def touchLeaf (id : PageId) (ancestors : List PageId) : TreeM (Bool × Leaf) := do
  let s ← get
  let fresh := (s.freshLeaves.lookup id).isSome
  if fresh then do
    let leaf ← cachedLeaf id fresh
    pure (fresh, leaf)
  else do
    ensureLeafDirty id ancestors
    let leaf ← cachedLeaf id fresh
    pure (fresh, leaf)

/-- Take a leaf that is about to split out of its cache. -/
def takeCachedLeaf (id : PageId) (fresh : Bool) : TreeM Unit :=
  modify fun s =>
    if fresh then { s with freshLeaves := s.freshLeaves.erase id }
    else { s with
      scheduledFrees := swapRemove s.scheduledFrees id
      dirtyParentPaths := s.dirtyParentPaths.erase id
      dirtyLeaves := s.dirtyLeaves.erase id }

/-! ## §4. Split propagation -/

/-- `remap_dirty_parent_paths`. -/
def remapDirtyParentPaths (old new : PageId) (s : Session) : Session :=
  { s with dirtyParentPaths := s.dirtyParentPaths.mapVals fun _ path =>
      path.map fun p => if p = old then new else p }

/-- One path of `remap_dirty_parent_paths_split`: `old` becomes the half that
    holds the next hop, which is the leaf itself at the end of the path. -/
def remapSplitPath (old leftNew rightNew : PageId) (rightChildren : List PageId) (leaf : PageId) :
    List PageId → List PageId
  | [] => []
  | p :: path =>
    let nextHop := (path.head?).getD leaf
    (if p = old then (if rightChildren.contains nextHop then rightNew else leftNew) else p)
      :: remapSplitPath old leftNew rightNew rightChildren leaf path

/-- `remap_dirty_parent_paths_split`. -/
def remapDirtyParentPathsSplit (old leftNew rightNew : PageId) (right : Internal) (s : Session) :
    Session :=
  { s with
    dirtyParentPaths := s.dirtyParentPaths.mapVals
      (remapSplitPath old leftNew rightNew right.children) }

/-- The last loop of `propagate_split_up`: copy the remaining ancestors, nearest
    first, each with its one changed link. -/
def copySpine : List PageId → PageId → PageId → TreeM PageId
  | [], _, childNew => pure childNew
  | p :: up, childOld, childNew => do
    let newP ← allocatePage
    cowInternalRepointingChild p newP childOld childNew
    freePage p
    modify (remapDirtyParentPaths p newP)
    copySpine up p newP

/-- `propagate_split_up`; `ancestors` is the path without the leaf, nearest
    first. -/
def propagateSplitUp : List PageId → PageId → PageId → Bytes → PageId → TreeM Unit
  | [], _, left, sep, right => do
    let newRoot ← allocatePage
    writeInternal newRoot { leftmostChild := left, entries := [(sep, right)] }
    modify fun s => { s with
      rootPageId := newRoot
      dirtyParentPaths := s.dirtyParentPaths.mapVals fun _ path => newRoot :: path }
  | p :: up, childOld, left, sep, right => do
    let old ← readInternal p
    let node := (old.repoint childOld left).upsert sep right
    let newPage ← allocatePage
    if node.fits (← get).pageSize then do
      writeInternal newPage node
      freePage p
      modify (remapDirtyParentPaths p newPage)
      let root ← copySpine up p newPage
      modify fun s => { s with rootPageId := root }
    else
      match node.split with
      | none => throw .panic
      | some (l, r, promoted) => do
        let rightPage ← allocatePage
        writeInternal newPage l
        writeInternal rightPage r
        freePage p
        modify (remapDirtyParentPathsSplit p newPage rightPage r)
        propagateSplitUp up p newPage promoted rightPage

/-! ## §5. Insert and delete -/

/-- `apply_release_result`. -/
def applyReleaseResult (oldRoot unusedCowPage : PageId) : ReleaseResult → TreeM Unit
  | .freed pages => do
    freePages pages
    freePage unusedCowPage
  | .decremented => freePage oldRoot

/-- `discard_uncommitted_value`.  A failed walk is only logged; a dropped future
    is not caught. -/
def discardUncommittedValue : Option LeafValue → TreeM Unit
  | some (.overflow _ rootPageId) => do
    let pages ← tryCatch (collectChain rootPageId) fun e =>
      if e = .cancelled then throw e else pure []
    freePages pages
  | _ => pure ()

/-- Release the chain of a value that left the tree.  On an error the record is
    put back by `undo`; a dropped future runs none of that. -/
def releaseOld (undo : TreeM Unit) : Option LeafValue → TreeM Unit
  | some (.overflow _ oldRoot) => do
    let newCowPage ← allocatePage
    let result ← tryCatch (release oldRoot newCowPage) fun e => do
      if e = .cancelled then throw e
      else do
        freePage newCowPage
        undo
        throw e
    applyReleaseResult oldRoot newCowPage result
  | _ => pure ()

/-- The split branch of `put_at_path`; `ancestors` nearest first. -/
def splitAtPath (id : PageId) (fresh : Bool) (ancestors : List PageId) (leaf : Leaf)
    (monotonic : Bool) : TreeM Unit := do
  takeCachedLeaf id fresh
  let newLeafPage ← allocatePage
  match splitLeaf leaf monotonic (← get).pageSize with
  | none => throw .diverges
  | some (left, right, sep) => do
    let rightPage ← allocatePage
    modify fun s => { s with
      freshLeaves := (s.freshLeaves.insert newLeafPage
        { left with leftSibling := 0, rightSibling := 0 }).insert rightPage
        { right with leftSibling := 0, rightSibling := 0 } }
    freePage id
    propagateSplitUp ancestors id newLeafPage sep rightPage

/-- Whether `key` lies strictly to the right of every record. -/
def Leaf.appends (leaf : Leaf) (key : Bytes) : Bool :=
  (leaf.records.getLast?).any (fun r => decide (r.1 < key)) && !leaf.records.any fun r => r.1 == key

/-- `put_at_path`.  Returns whether the leaf split. -/
def putAtPath (path : List PageId) (key : Bytes) (value : LeafValue) : TreeM Bool := do
  match path.getLast? with
  | none => throw .panic
  | some id => do
    let (fresh, leaf) ← touchLeaf id path.dropLast
    let (leaf', old) := leaf.upsert key value
    setCachedLeaf id fresh leaf'
    releaseOld (do
        let leaf ← cachedLeaf id fresh
        match old with
        | none => pure ()
        | some oldValue => do
          let (restored, attempted) := leaf.upsert key oldValue
          setCachedLeaf id fresh restored
          discardUncommittedValue attempted)
      old
    if leaf'.fits (← get).pageSize then pure false
    else do
      splitAtPath id fresh path.dropLast.reverse leaf' (leaf.appends key)
      pure true

/-- `validate_insert_record_fits`. -/
def validateInsertRecordFits (key value : Bytes) : TreeM Unit := do
  let pageSize := (← get).pageSize
  if singleRecordFitsEncoded key.length (storedLeafValueEncodedSize value.length pageSize) pageSize
      && separatorFits key.length pageSize then pure ()
  else throw .payloadTooLarge

/-- `leaf_value_for`. -/
def leafValueFor (value : Bytes) : TreeM LeafValue := do
  if value.length > inlineValueThreshold (← get).pageSize then do
    let root ← writeChain value
    pure (.overflow value.length root)
  else pure (.inline value)

/-- The first record of an empty tree. -/
def putFirst (key : Bytes) (value : LeafValue) : TreeM Unit := do
  let newRoot ← allocatePage
  writeLeaf newRoot (Leaf.new.upsert key value).1
  modify fun s => { s with rootPageId := newRoot, appendCachedPath := none }

/-- `BTree::put`. -/
def treePut (key value : Bytes) : TreeM Unit := do
  invalidateAppendState
  validateInsertRecordFits key value
  let leafValue ← leafValueFor value
  if (← get).rootPageId = 0 then putFirst key leafValue
  else do
    let path ← pathToLeafForKey key
    let _ ← putAtPath path key leafValue
    pure ()

/-- `delete_at_path`. -/
def deleteAtPath (path : List PageId) (key : Bytes) : TreeM Bool := do
  match path.getLast? with
  | none => throw .panic
  | some id => do
    let (fresh, leaf) ← touchLeaf id path.dropLast
    let (leaf', old) := leaf.remove key
    setCachedLeaf id fresh leaf'
    releaseOld (do
        let leaf ← cachedLeaf id fresh
        match old with
        | none => pure ()
        | some oldValue => setCachedLeaf id fresh (leaf.upsert key oldValue).1)
      old
    pure old.isSome

/-- `BTree::delete`. -/
def treeDelete (key : Bytes) : TreeM Bool := do
  invalidateAppendState
  if (← get).rootPageId = 0 then pure false
  else do
    let path ← pathToLeafForKey key
    deleteAtPath path key

/-! ## §6. Flush -/

/-- The links of a node through a redirect table. -/
def Internal.redirect (node : Internal) (redirects : Lib.Table PageId PageId) : Internal where
  leftmostChild := (redirects.lookup node.leftmostChild).getD node.leftmostChild
  entries := node.entries.map fun e => (e.1, (redirects.lookup e.2).getD e.2)

/-- Write drained fresh leaves at their own ids. -/
def writeFreshLeaves : List (PageId × Leaf) → TreeM Unit
  | [] => pure ()
  | (id, leaf) :: rows => do
    writeLeaf id leaf
    writeFreshLeaves rows

/-- Write drained dirty leaves to new pages, collecting the redirects. -/
def writeDirtyLeaves : List (PageId × Leaf) → Lib.Table PageId PageId →
    TreeM (Lib.Table PageId PageId)
  | [], redirects => pure redirects
  | (old, leaf) :: rows, redirects => do
    let new ← allocatePage
    writeLeaf new leaf
    writeDirtyLeaves rows (redirects.insert old new)

/-- Rewrite the internals of one depth that link to a redirected child. -/
def rewriteInternals : List PageId → Lib.Table PageId PageId → List PageId →
    TreeM (Lib.Table PageId PageId × List PageId)
  | [], redirects, frees => pure (redirects, frees)
  | old :: ids, redirects, frees => do
    let node ← readInternal old
    if node.children.any fun c => (redirects.lookup c).isSome then do
      let new ← allocatePage
      writeInternal new (node.redirect redirects)
      rewriteInternals ids (redirects.insert old new) (frees ++ [old])
    else rewriteInternals ids redirects frees

/-- The ids at one depth of the parent paths, as an ordered set. -/
def internalsAtDepth (paths : List (List PageId)) (depth : Nat) : List PageId :=
  ((paths.filterMap fun path => path[depth]?).dedup).mergeSort (· ≤ ·)

/-- The spine, deepest first: `depths` counts the levels still to do. -/
def rewriteSpine (paths : List (List PageId)) : Nat → Lib.Table PageId PageId → List PageId →
    TreeM (Lib.Table PageId PageId × List PageId)
  | 0, redirects, frees => pure (redirects, frees)
  | depth + 1, redirects, frees => do
    let (redirects, frees) ← rewriteInternals (internalsAtDepth paths depth) redirects frees
    rewriteSpine paths depth redirects frees

/-- Drain the fresh leaves in hash order. -/
def drainFreshLeaves (hash : HashOrder) : TreeM (List (PageId × Leaf)) := do
  let s ← get
  set { s with freshLeaves := ∅, drains := s.drains + 1 }
  pure (hash.order s.drains s.freshLeaves.toList)

/-- Drain the dirty leaves, and their parent paths, in hash order. -/
def drainDirtyLeaves (hash : HashOrder) : TreeM (List (PageId × Leaf) × List (List PageId)) := do
  let s ← get
  set { s with dirtyLeaves := ∅, dirtyParentPaths := ∅, drains := s.drains + 1 }
  pure (hash.order s.drains s.dirtyLeaves.toList, s.dirtyParentPaths.toList.map Prod.snd)

/-- `flush_dirty_leaves`. -/
def flushDirtyLeaves (hash : HashOrder) : TreeM Unit := do
  let fresh ← drainFreshLeaves hash
  writeFreshLeaves fresh
  if (← get).dirtyLeaves.entries.isEmpty then pure ()
  else do
    let (dirties, paths) ← drainDirtyLeaves hash
    let redirects ← writeDirtyLeaves dirties ∅
    let depths := (paths.map List.length).foldl max 0
    let (redirects, frees) ← rewriteSpine paths depths redirects []
    modify fun s => { s with
      rootPageId := (redirects.lookup s.rootPageId).getD s.rootPageId }
    freePages frees

/-- `BTree::materialize_dirty`. -/
def materializeDirty (hash : HashOrder) : TreeM Unit := flushDirtyLeaves hash

end Pagedb
