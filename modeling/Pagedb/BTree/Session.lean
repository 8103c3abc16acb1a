/-
  Pagedb.BTree.Session — the state of one tree and its page allocator
  (`btree/tree/core.rs`, `btree/tree/page_source.rs`).

  A tree call is a program over a `Session`: the tree's own fields, and the
  pager, the free-page cache and the consumed-page sink that the trees of one
  write session share.  A `Vec` is a list that grows at its end.
-/
import Pagedb.Lib.Exec
import Pagedb.Lib.Table
import Pagedb.Pager.Page

namespace Pagedb

/-! ## §1. State -/

/-- `BTree`.  `reuseThreshold` is `none` for a tree with no page source.
    `drains` counts the drains of its hash maps so far. -/
structure BTree where
  pageSize : Nat
  rootPageId : PageId
  nextPageId : PageId
  freed : List PageId
  freedReusable : List PageId
  dirtyLeaves : Lib.Table PageId Leaf
  scheduledFrees : List PageId
  dirtyParentPaths : Lib.Table PageId (List PageId)
  freshLeaves : Lib.Table PageId Leaf
  reuseThreshold : Option PageId
  appendLastKey : Option Bytes
  appendCachedPath : Option (List PageId)
  drains : Nat

/-- What the trees of one write session share. -/
structure SharedPages where
  pager : Pager
  cache : List PageId
  consumed : List PageId

structure Session extends BTree, SharedPages

/-- The order a hash map's drain yields its rows in: any order, and any other
    at the next drain. -/
structure HashOrder where
  order : {α : Type} → Nat → List (PageId × α) → List (PageId × α)
  perm : ∀ {α : Type} (n : Nat) (rows : List (PageId × α)), (order n rows).Perm rows

/-- The drain that keeps the order of insertion, newest first. -/
def HashOrder.stable : HashOrder where
  order := fun _ rows => rows
  perm := fun _ rows => List.Perm.refl rows

/-- A program on a tree session. -/
abbrev TreeM := EStateM TreeError Session

/-- `BTree::open` and `BTree::open_session`. -/
def BTree.open (pageSize rootPageId nextPageId : Nat) (reuseThreshold : Option PageId) : BTree where
  pageSize
  rootPageId
  nextPageId := max nextPageId 4
  freed := []
  freedReusable := []
  dirtyLeaves := ∅
  scheduledFrees := []
  dirtyParentPaths := ∅
  freshLeaves := ∅
  reuseThreshold
  appendLastKey := none
  appendCachedPath := none
  drains := 0

/-! ## §2. Pager access -/

/-- One await. -/
def await : TreeM Unit := do
  let s ← get
  match s.pager.faults with
  | [] => pure ()
  | .none :: faults => set { s with pager := s.pager.withFaults faults }
  | .fail :: faults => do
    set { s with pager := s.pager.withFaults faults }
    throw .io
  | .cancel :: faults => do
    set { s with pager := s.pager.withFaults faults }
    throw .cancelled

/-- A page read of any kind. -/
def readPage (id : PageId) : TreeM Page := do
  await
  match (← get).pager.page id with
  | none => throw .unexpectedEof
  | some page => pure page

/-- `read_main_page` and `write_main_page` may be dropped before or after the
    page is buffered. -/
def writePage (id : PageId) (page : Page) : TreeM Unit := do
  await
  modify fun s => { s with pager := s.pager.write id page }
  await

/-- `read_node_guard`. -/
def readNodeGuard (id : PageId) : TreeM (Leaf ⊕ Internal) := do
  match ← readPage id with
  | .leaf leaf => pure (.inl leaf)
  | .internal node => pure (.inr node)
  | _ => throw .illegalPageKind

/-- `decode_leaf_from_pager`. -/
def decodeLeafFromPager (id : PageId) : TreeM Leaf := do
  match ← readPage id with
  | .leaf leaf => pure leaf
  | _ => throw .illegalPageKind

/-- `read_internal`. -/
def readInternal (id : PageId) : TreeM Internal := do
  match ← readPage id with
  | .internal node => pure node
  | _ => throw .illegalPageKind

/-- `write_leaf`. -/
def writeLeaf (id : PageId) (leaf : Leaf) : TreeM Unit := do
  if leaf.fits (← get).pageSize then writePage id (.leaf leaf) else throw .payloadTooLarge

/-- `write_internal`. -/
def writeInternal (id : PageId) (node : Internal) : TreeM Unit := do
  if node.fits (← get).pageSize then writePage id (.internal node) else throw .payloadTooLarge

/-- `cow_internal_repointing_child`: the body is copied with one link patched,
    so its size is not checked again. -/
def cowInternalRepointingChild (oldPageId newPageId childOld childNew : PageId) : TreeM Unit := do
  let node ← readInternal oldPageId
  writePage newPageId (.internal (node.repoint childOld childNew))

/-! ## §3. Page allocation -/

/-- Pages 0..=3 are reserved. -/
def FIRST_DATA_PAGE : PageId := 4

/-- The assertions of the allocator: no reserved page passes through it. -/
def assertUsable (id : PageId) : TreeM Unit :=
  if id < FIRST_DATA_PAGE then throw .panic else pure ()

/-- `allocate_page`. -/
def allocatePage : TreeM PageId := do
  let s ← get
  match s.freedReusable.getLast? with
  | some id =>
    assertUsable id
    set { s with freedReusable := s.freedReusable.dropLast }
    pure id
  | none =>
    match s.reuseThreshold, s.cache.getLast? with
    | some _, some id =>
      assertUsable id
      set { s with cache := s.cache.dropLast, consumed := s.consumed ++ [id] }
      pure id
    | _, _ =>
      assertUsable s.nextPageId
      set { s with nextPageId := s.nextPageId + 1 }
      pure s.nextPageId

/-- `is_reusable_in_session`. -/
def Session.isReusable (s : Session) (id : PageId) : Bool :=
  match s.reuseThreshold with
  | none => true
  | some threshold => threshold ≤ id || s.consumed.contains id

/-- `free_page`. -/
def freePage (id : PageId) : TreeM Unit := do
  assertUsable id
  modify fun s =>
    if s.isReusable id then { s with freedReusable := s.freedReusable ++ [id] }
    else { s with freed := s.freed ++ [id] }

/-- Free every page of a list. -/
def freePages : List PageId → TreeM Unit
  | [] => pure ()
  | id :: ids => do
    freePage id
    freePages ids

/-- `Vec::swap_remove` of the first occurrence of `id`. -/
def swapRemove (l : List PageId) (id : PageId) : List PageId :=
  let pos := l.idxOf id
  if pos < l.length then
    match l.getLast? with
    | none => l
    | some last => (l.set pos last).dropLast
  else l

end Pagedb
