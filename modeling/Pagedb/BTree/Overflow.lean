/-
  Pagedb.BTree.Overflow — values too large for a leaf (`btree/overflow.rs`).

  Such a value is a chain of pages.  A chain walk keeps the set of pages it has
  visited, so it ends within the number of pages the pager holds.
-/
import Pagedb.BTree.Session

namespace Pagedb

/-- `OVERFLOW_HEADER_LEN`. -/
def OVERFLOW_HEADER_LEN : Nat := 12

/-- `OVERFLOW_ROOT_HEADER_LEN`. -/
def OVERFLOW_ROOT_HEADER_LEN : Nat := 4 + OVERFLOW_HEADER_LEN

/-- `overflow_page_capacity`. -/
def overflowPageCapacity (pageSize : Nat) : Nat :=
  pageSize - ENVELOPE_OVERHEAD - OVERFLOW_HEADER_LEN

/-- `overflow_root_capacity`. -/
def overflowRootCapacity (pageSize : Nat) : Nat :=
  pageSize - ENVELOPE_OVERHEAD - OVERFLOW_ROOT_HEADER_LEN

/-- `read_root_page`: refcount, link and data. -/
def readRootPage (id : PageId) : TreeM (Nat × PageId × Bytes) := do
  match ← readPage id with
  | .overflowRoot refcount next data => pure (refcount, next, data)
  | _ => throw .illegalPageKind

/-- A read of a later chain page: link and data. -/
def readChainPage (id : PageId) : TreeM (PageId × Bytes) := do
  match ← readPage id with
  | .overflow next data => pure (next, data)
  | _ => throw .illegalPageKind

/-- A page for the rest of the value, if there is a rest. -/
def nextChainPage (more : Bool) : TreeM PageId := if more then allocatePage else pure 0

/-- The loop of `write_chain` from `pageId` on.  Every turn but the last stores
    a full page, so the value's length bounds the turns. -/
def writeChainFrom : Nat → PageId → Bytes → Bool → TreeM Unit
  | 0, _, _, _ => throw .diverges
  | turns + 1, pageId, value, isRoot => do
    let pageSize := (← get).pageSize
    let cap := if isRoot then overflowRootCapacity pageSize else overflowPageCapacity pageSize
    let next ← nextChainPage (cap < value.length)
    let chunk := value.take cap
    writePage pageId (if isRoot then .overflowRoot 1 next chunk else .overflow next chunk)
    if next = 0 then pure () else writeChainFrom turns next (value.drop cap) false

/-- `write_chain`, with the flush target of the put path. -/
def writeChain (value : Bytes) : TreeM PageId := do
  let root ← allocatePage
  writeChainFrom (value.length + 1) root value true
  pure root

/-- The loop of `write_chain` with any allocator: `alloc n` is its `n`-th answer. -/
def writeChainFromBy (alloc : Nat → PageId) : Nat → Nat → PageId → Bytes → Bool → TreeM Unit
  | 0, _, _, _, _ => throw .diverges
  | turns + 1, n, pageId, value, isRoot => do
    let pageSize := (← get).pageSize
    let cap := if isRoot then overflowRootCapacity pageSize else overflowPageCapacity pageSize
    let next := if cap < value.length then alloc n else 0
    let chunk := value.take cap
    writePage pageId (if isRoot then .overflowRoot 1 next chunk else .overflow next chunk)
    if next = 0 then pure () else writeChainFromBy alloc turns (n + 1) next (value.drop cap) false

/-- `write_chain` with any allocator. -/
def writeChainBy (alloc : Nat → PageId) (value : Bytes) : TreeM PageId := do
  writeChainFromBy alloc (value.length + 1) 1 (alloc 0) value true
  pure (alloc 0)

/-- The chain pages from `next` on, in order, with their data. -/
def walkChain : Nat → List PageId → PageId → TreeM (List (PageId × Bytes))
  | 0, _, _ => throw .overflowChainCycle
  | turns + 1, seen, cur =>
    if cur = 0 then pure []
    else if seen.contains cur then throw .overflowChainCycle
    else do
      let (next, data) ← readChainPage cur
      let rest ← walkChain turns (cur :: seen) next
      pure ((cur, data) :: rest)

/-- `ReleaseResult`. -/
inductive ReleaseResult where
  | decremented
  | freed (pages : List PageId)

/-- `release`. -/
def release (rootPageId newPageId : PageId) : TreeM ReleaseResult := do
  let (refcount, next, data) ← readRootPage rootPageId
  if refcount ≤ 1 then do
    let turns := (← get).pager.pageCount + 1
    let chain ← walkChain turns [rootPageId] next
    pure (.freed (rootPageId :: chain.map Prod.fst))
  else do
    writePage newPageId (.overflowRoot (refcount - 1) next data)
    pure .decremented

/-- `collect_chain`. -/
def collectChain (rootPageId : PageId) : TreeM (List PageId) := do
  let (_, next, _) ← readRootPage rootPageId
  let turns := (← get).pager.pageCount + 1
  let chain ← walkChain turns [rootPageId] next
  pure (rootPageId :: chain.map Prod.fst)

/-- The loop of `read_chain`: it refuses data past the declared length as soon
    as it is read. -/
def readChainFrom (totalLen : Nat) : Nat → List PageId → PageId → Bytes → TreeM Bytes
  | 0, _, _, _ => throw .overflowChainCycle
  | turns + 1, seen, next, out =>
    if next = 0 then pure out
    else if seen.contains next then throw .overflowChainCycle
    else do
      let (after, data) ← readChainPage next
      if out.length + data.length > totalLen then throw .overflowBodyMalformed
      else readChainFrom totalLen turns (next :: seen) after (out ++ data)

/-- `read_chain` of a length that is an `isize`, as that of every value in memory is. -/
def readChain (rootPageId : PageId) (totalLen : Nat) : TreeM Bytes := do
  let (_, next, data) ← readRootPage rootPageId
  if data.length > totalLen then throw .overflowBodyMalformed
  else do
    let turns := (← get).pager.pageCount + 1
    let out ← readChainFrom totalLen turns [rootPageId] next data
    if out.length = totalLen then pure out else throw .overflowBodyMalformed

/-- `isize::MAX`. -/
def ISIZE_MAX : Nat := 2 ^ 63 - 1

/-- `read_chain` of any declared length. -/
def readChainChecked (rootPageId : PageId) (totalLen : Nat) : TreeM Bytes :=
  if totalLen > ISIZE_MAX then throw .overflowBodyMalformed else readChain rootPageId totalLen

/-- The part of a chunk inside the window `start..stop` is added to `out`, and
    whether the window ends in the chunk.  The subtraction and the slice of the
    source are checked. -/
def takeWindow (start stop consumed : Nat) (chunk out : Bytes) : TreeM (Bytes × Bool) :=
  if start < satAdd consumed chunk.length then
    if stop < consumed then throw .panic
    else
      let lo := start - consumed
      let hi := min (stop - consumed) chunk.length
      if hi < lo then throw .panic
      else pure (out ++ (chunk.take hi).drop lo, decide (stop ≤ consumed + hi))
  else pure (out, false)

/-- The loop of `read_chain_range`. -/
def readRangeFrom (start stop : Nat) :
    Nat → List PageId → Nat → Bytes → PageId → Bytes → TreeM Bytes
  | 0, _, _, _, _, _ => throw .overflowChainCycle
  | turns + 1, seen, consumed, chunk, next, out => do
    let (out, done) ← takeWindow start stop consumed chunk out
    if done then pure out
    else if next = 0 then
      if out.length = stop - start then pure out else throw .overflowBodyMalformed
    else if seen.contains next then throw .overflowChainCycle
    else do
      let (after, data) ← readChainPage next
      readRangeFrom start stop turns (next :: seen) (satAdd consumed chunk.length) data after out

/-- `start.checked_add(len)`, cut at the end of the value. -/
def windowEnd (start len totalLen : Nat) : Nat :=
  if start + len ≤ U64_MAX then min (start + len) totalLen else totalLen

/-- `read_chain_range`. -/
def readChainRange (rootPageId : PageId) (totalLen offset len : Nat) : TreeM Bytes :=
  if totalLen > ISIZE_MAX then throw .overflowBodyMalformed
  else
    let start := min offset totalLen
    let stop := windowEnd start len totalLen
    if stop ≤ start then pure []
    else do
      let (_, next, data) ← readRootPage rootPageId
      readRangeFrom start stop ((← get).pager.pageCount + 1) [rootPageId] 0 data next []

end Pagedb
