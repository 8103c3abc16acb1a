/-
  Pagedb.Pager.Page — main.db pages and the pager's cache of them
  (`pager/core`, `pager/cache`, `pager/freelist/layout.rs`).

  A page is modelled as what its body decodes to.  The pager holds the file and
  the buffered writes not yet flushed; a read sees the buffered write first.
-/
import Pagedb.BTree.Node

namespace Pagedb

/-- One page of the free-list chain: its link, its `(commit id, page id)`
    entries, and the summary of everything from this page down. -/
structure FreePage where
  next : PageId
  entries : List (CommitId × PageId)
  suffixEntries : Nat
  suffixMaxCid : CommitId
  suffixMinCid : CommitId
  deriving DecidableEq, Repr

/-- A main.db page by its kind. -/
inductive Page where
  | leaf (leaf : Leaf)
  | internal (node : Internal)
  | overflowRoot (refcount : Nat) (next : PageId) (data : Bytes)
  | overflow (next : PageId) (data : Bytes)
  | free (page : FreePage)
  deriving DecidableEq, Repr

/-- What happens at one await: nothing, an error from below, or the caller
    drops the future. -/
inductive Fault where
  | none
  | fail
  | cancel
  deriving DecidableEq, Repr

/-- `PagedbError`, as far as the modelled calls raise it.  `panic` is a failed
    assertion, an index out of range or an integer overflow, `diverges` a loop
    that does not end. -/
inductive TreeError where
  | io
  | unexpectedEof
  | cancelled
  | payloadTooLarge
  | illegalPageKind
  | pageChainCycle
  | overflowChainCycle
  | overflowBodyMalformed
  | appendNotMonotonic
  | bulkLoadNotMonotonic
  | leafSiblingMismatch
  | catalogRowInvalid
  | reservedPageReferenced
  | pageKindAliased
  | nodeBodyMalformed
  | writeTxnInterrupted
  | nameTooLong
  | aborted
  | nonceCounterExhausted
  | alreadyLinked
  | notLinked
  | quotaExceeded
  | deferredFreeBacklog
  | commitGone
  | panic
  | diverges
  deriving DecidableEq, Repr

/-- `proves_unreadable_pages`: the errors that only a damaged page graph raises. -/
def TreeError.provesUnreadablePages : TreeError → Bool
  | .illegalPageKind | .unexpectedEof | .pageChainCycle | .overflowChainCycle
  | .overflowBodyMalformed | .leafSiblingMismatch | .catalogRowInvalid
  | .reservedPageReferenced | .pageKindAliased | .nodeBodyMalformed => true
  | _ => false

/-- The pager as the trees use it.  `written` records the ids passed to
    `write_main_page` since it was last cleared. -/
structure Pager where
  disk : List (PageId × Page)
  dirty : List (PageId × Page)
  written : List PageId
  faults : List Fault
  deriving DecidableEq, Repr

namespace Pager

/-- The page a read of `id` sees. -/
def page (p : Pager) (id : PageId) : Option Page := (p.dirty ++ p.disk).lookup id

/-- How many page images the pager holds.  A walk that never repeats a page
    ends within this many pages. -/
def pageCount (p : Pager) : Nat := (p.dirty ++ p.disk).length

/-- `write_main_page`. -/
def write (p : Pager) (id : PageId) (page : Page) : Pager :=
  { p with dirty := (id, page) :: p.dirty, written := p.written ++ [id] }

/-- The same pager with other faults ahead. -/
def withFaults (p : Pager) (faults : List Fault) : Pager := { p with faults }

@[simp] theorem page_withFaults (p : Pager) (fs : List Fault) (id : PageId) :
    (p.withFaults fs).page id = p.page id := rfl

@[simp] theorem page_write_self (p : Pager) (id : PageId) (page : Page) :
    (p.write id page).page id = some page := by
  show ((id, page) :: (p.dirty ++ p.disk)).lookup id = some page
  rw [List.lookup_cons, beq_self_eq_true]

theorem page_write_ne (p : Pager) {id other : PageId} (page : Page) (h : other ≠ id) :
    (p.write id page).page other = p.page other := by
  show ((id, page) :: (p.dirty ++ p.disk)).lookup other = _
  rw [List.lookup_cons, beq_eq_false_iff_ne.mpr h]
  rfl

theorem mem_of_page {p : Pager} {id : PageId} {page : Page} (h : p.page id = some page) :
    id ∈ (p.dirty ++ p.disk).map Prod.fst := by
  obtain ⟨l₁, l₂, hsplit, -⟩ := List.lookup_eq_some_iff.mp h
  rw [hsplit]
  simp

end Pager

end Pagedb
