/-
  Pagedb.BTree.Maintenance — every page of a tree (`btree/tree/maintenance.rs`).

  The walk keeps a stack of node pages to read and the set of pages it has met,
  node pages and overflow pages together.
-/
import Pagedb.BTree.Tree

namespace Pagedb

/-- The loop of `collect_overflow_chain`. -/
def collectChainFrom : Nat → PageId → List PageId → TreeM (List PageId)
  | 0, _, _ => throw .overflowChainCycle
  | turns + 1, id, visited =>
    if id = 0 then pure visited
    else if id < FIRST_DATA_PAGE then throw .reservedPageReferenced
    else if id ∈ visited then throw .overflowChainCycle
    else do
      let (next, _) ← readChainPage id
      collectChainFrom turns next (id :: visited)

/-- `collect_overflow_chain`. -/
def collectOverflowChain (root : PageId) (visited : List PageId) : TreeM (List PageId) :=
  if root < FIRST_DATA_PAGE then throw .reservedPageReferenced
  -- a chain that several leaves share is walked once
  else if root ∈ visited then pure visited
  else do
    let (_, next, _) ← readRootPage root
    let turns := (← get).pager.pageCount + 1
    collectChainFrom turns next (root :: visited)

/-- The chains the records of one leaf refer to. -/
def collectLeafChains : Records → List PageId → TreeM (List PageId)
  | [], visited => pure visited
  | (_, .inline _) :: records, visited => collectLeafChains records visited
  | (_, .overflow _ root) :: records, visited => do
    let visited ← collectOverflowChain root visited
    collectLeafChains records visited

/-- The loop of `collect_unvisited_page_ids`; the stack is popped at its head. -/
def collectNodesFrom : Nat → List PageId → List PageId → TreeM (List PageId)
  | _, [], visited => pure visited
  | 0, _ :: _, _ => throw .diverges
  | turns + 1, id :: stack, visited =>
    if id < FIRST_DATA_PAGE then throw .reservedPageReferenced
    else if id ∈ visited then collectNodesFrom turns stack visited
    else do
      match ← readNodeGuard id with
      | .inl leaf => do
        let visited ← collectLeafChains leaf.records (id :: visited)
        collectNodesFrom turns stack visited
      | .inr node =>
        -- a zero child id is an absent slot, not a pointer
        let children := node.children.filter (· ≠ 0)
        collectNodesFrom turns (children.reverse ++ stack) (id :: visited)

/-- How many links the pages of the pager hold. -/
def Session.linkBound (s : Session) : Nat :=
  ((s.pager.dirty ++ s.pager.disk).map fun e =>
    match e.2 with
    | .internal node => node.children.length
    | _ => 0).sum + 1

/-- `collect_all_page_ids`, as an ordered set. -/
def collectAllPageIds : TreeM (List PageId) := do
  let s ← get
  if s.rootPageId = 0 then pure []
  else do
    let pages ← collectNodesFrom s.linkBound [s.rootPageId] []
    pure (pages.mergeSort (· ≤ ·))

end Pagedb
