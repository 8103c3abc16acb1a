/-
  Pagedb.Txn.Db — the handle of a store (`txn/db/core.rs`).

  The trees of one writer share the pager, the cache of free pages and the sink
  of pages drawn from it.  A call on one tree is lifted to a program over what
  they share.
-/
import Pagedb.BTree.Maintenance
import Pagedb.BTree.Scan
import Pagedb.Catalog.Codec
import Pagedb.Pager.FreeList

namespace Pagedb

/-! ## §1. Programs over the shared pages -/

/-- A program over what the trees of a writer share. -/
abbrev SharedM := EStateM TreeError SharedPages

variable {α : Type}

/-- A call on a tree, which comes back changed. -/
def onTree (tree : BTree) (x : TreeM α) : SharedM (α × BTree) := fun shared =>
  match x { toBTree := tree, toSharedPages := shared } with
  | .ok a s => .ok (a, s.toBTree) s.toSharedPages
  | .error e s => .error e s.toSharedPages

/-- A call on the pager alone. -/
def onPager (x : PagerM α) : SharedM α := fun shared =>
  match x shared.pager with
  | .ok a pager => .ok a { shared with pager }
  | .error e pager => .error e { shared with pager }

/-! ## §2. Options -/

/-- The page sizes a store can be created with. -/
def PAGE_SIZES : List Nat := [4096, 8192, 16384, 32768, 65536]

/-- The options of a handle that the checks read. -/
structure Options where
  pageSize : Nat
  pageSize_mem : pageSize ∈ PAGE_SIZES
  commitHistoryRetain : RetainPolicy
  deriving DecidableEq, Repr

end Pagedb
