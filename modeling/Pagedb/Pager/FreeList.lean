/-
  Pagedb.Pager.FreeList — the durable chain of free pages
  (`pager/freelist/{layout,read,write}.rs`).

  The chain is read in a bounded window from its head.  A rewrite replaces that
  window and links its last page to the untouched tail.
-/
import Pagedb.Lib.Exec
import Pagedb.Pager.Page

namespace Pagedb

/-! ## §1. Pager access -/

/-- A program on the pager alone. -/
abbrev PagerM := EStateM TreeError Pager

/-- One await. -/
def Pager.await : PagerM Unit := do
  let p ← get
  match p.faults with
  | [] => pure ()
  | .none :: faults => set (p.withFaults faults)
  | .fail :: faults => do
    set (p.withFaults faults)
    throw .io
  | .cancel :: faults => do
    set (p.withFaults faults)
    throw .cancelled

/-- `read_main_page` of a free-list page. -/
def readFreePage (id : PageId) : PagerM FreePage := do
  Pager.await
  match (← get).page id with
  | none => throw .unexpectedEof
  | some (.free page) => pure page
  | some _ => throw .illegalPageKind

/-- `write_main_page` of a free-list page. -/
def writeFreePage (id : PageId) (page : FreePage) : PagerM Unit := do
  Pager.await
  modify fun p => p.write id (.free page)
  Pager.await

/-! ## §2. Reading the chain -/

/-- `chain_capacity`. -/
def chainCapacity (pageSize : Nat) : Nat := (bodyCapacity pageSize - 36) / 16

/-- `ChainSummary`. -/
structure ChainSummary where
  entries : Nat
  maxCid : CommitId
  minCid : CommitId
  deriving DecidableEq, Repr

/-- `ChainSummary::default`. -/
def ChainSummary.empty : ChainSummary where
  entries := 0
  maxCid := 0
  minCid := U64_MAX

/-- The summary a page carries for everything from it down. -/
def FreePage.summary (page : FreePage) : ChainSummary where
  entries := page.suffixEntries
  maxCid := page.suffixMaxCid
  minCid := page.suffixMinCid

/-- `ChainTail`. -/
structure ChainTail where
  head : PageId
  summary : ChainSummary
  deriving DecidableEq, Repr

/-- `read_chain_summary`. -/
def readChainSummary (head : PageId) : PagerM ChainSummary :=
  if head = 0 then pure ChainSummary.empty
  else do
    let page ← readFreePage head
    pure page.summary

/-- `ChainWalk`: the slow cursor reads pages, the fast one finds cycles. -/
structure ChainWalk where
  tortoise : PageId
  hare : PageId
  entries : List (CommitId × PageId)
  lastSummary : ChainSummary
  deriving DecidableEq, Repr

/-- `ChainWalk::new`. -/
def ChainWalk.new (head : PageId) : ChainWalk where
  tortoise := head
  hare := head
  entries := []
  lastSummary := ChainSummary.empty

/-- One hop of the fast cursor. -/
def hareNext (hare : PageId) : PagerM PageId :=
  if hare = 0 then pure 0
  else do
    let page ← readFreePage hare
    pure page.next

/-- `ChainWalk::advance`. -/
def ChainWalk.advance (walk : ChainWalk) : PagerM (Option PageId × ChainWalk) :=
  if walk.tortoise = 0 then pure (none, { walk with entries := [] })
  else do
    let page ← readFreePage walk.tortoise
    let hare ← hareNext walk.hare
    let hare ← hareNext hare
    if hare ≠ 0 ∧ hare = page.next then throw .pageChainCycle
    else
      pure (some walk.tortoise,
        { tortoise := page.next, hare, entries := page.entries, lastSummary := page.summary })

/-- `ChainPrefix`. -/
structure ChainPrefix where
  entries : List (CommitId × PageId)
  chainPages : List PageId
  tail : ChainTail
  deriving DecidableEq, Repr

/-- The loop of `read_chain_prefix`. -/
def readPrefixFrom : Nat → ChainWalk → List (CommitId × PageId) → List PageId →
    PagerM (List (CommitId × PageId) × List PageId × ChainWalk)
  | 0, walk, entries, pages => pure (entries, pages, walk)
  | turns + 1, walk, entries, pages => do
    match ← walk.advance with
    | (none, walk) => pure (entries, pages, walk)
    | (some id, walk) => readPrefixFrom turns walk (entries ++ walk.entries) (pages ++ [id])

/-- `read_chain_prefix`. -/
def readChainPrefix (head : PageId) (maxPages : Nat) : PagerM ChainPrefix := do
  let (entries, chainPages, walk) ← readPrefixFrom maxPages (ChainWalk.new head) [] []
  let summary ← readChainSummary walk.tortoise
  pure { entries, chainPages, tail := { head := walk.tortoise, summary } }

/-- `read_chain`.  Its walk is not bounded; a cycle ends it, so the pages of the
    pager bound the turns. -/
def readFreeChain (head : PageId) : PagerM (List (CommitId × PageId) × List PageId) := do
  let window ← readChainPrefix head ((← get).pageCount + 1)
  if window.tail.head = 0 then pure (window.entries, window.chainPages) else throw .diverges

/-- `count_chain`. -/
def countChain (head : PageId) : PagerM Nat := do
  let summary ← readChainSummary head
  pure summary.entries

/-- The loop of `count_at_or_above_floor`.  A cycle ends the walk, so the pages
    of the pager bound the turns. -/
def countAboveFrom (floor : CommitId) : Nat → ChainWalk → Nat → PagerM Nat
  | 0, _, _ => throw .pageChainCycle
  | turns + 1, walk, total => do
    match ← walk.advance with
    | (none, _) => pure total
    | (some _, walk) =>
      if walk.lastSummary.maxCid < floor then pure total
      else if floor ≤ walk.lastSummary.minCid then pure (satAdd total walk.lastSummary.entries)
      else
        countAboveFrom floor turns walk
          (satAdd total (walk.entries.countP fun e => decide (floor ≤ e.1)))

/-- `count_at_or_above_floor`. -/
def countAtOrAboveFloor (head : PageId) (floor : CommitId) : PagerM Nat := do
  countAboveFrom floor ((← get).pageCount + 2) (ChainWalk.new head) 0

/-! ## §3. Rewriting the window -/

/-- A page's chunk on top of the summary below it. -/
def ChainSummary.add (s : ChainSummary) (chunk : List (CommitId × PageId)) : ChainSummary where
  entries := satAdd s.entries chunk.length
  maxCid := (chunk.map Prod.fst).foldl max s.maxCid
  minCid := (chunk.map Prod.fst).foldl min s.minCid

/-- The loop of `write_chain`: a page's summary covers the pages after it, so
    those are written first. -/
def writeChainPages (cap : Nat) : List PageId → List (CommitId × PageId) → ChainTail →
    PagerM ChainTail
  | [], _, tail => pure tail
  | id :: ids, entries, tail => do
    let below ← writeChainPages cap ids (entries.drop cap) tail
    let chunk := entries.take cap
    let summary := below.summary.add chunk
    writeFreePage id
      { next := below.head, entries := chunk, suffixEntries := summary.entries
        suffixMaxCid := summary.maxCid, suffixMinCid := summary.minCid }
    pure { head := id, summary }

/-- `write_chain`. -/
def writeFreeChain (pageSize : Nat) (chainPages : List PageId)
    (entries : List (CommitId × PageId)) (tail : ChainTail) : PagerM PageId :=
  if entries.isEmpty then pure tail.head
  else do
    let written ← writeChainPages (chainCapacity pageSize) chainPages entries tail
    pure written.head

/-- `div_ceil`, for a positive divisor. -/
def divCeil (a b : Nat) : Nat := (a + b - 1) / b

/-- The pages the new window takes: hosts first, then new ones. -/
structure Carving where
  carved : List PageId
  chainPages : List PageId
  hosts : List PageId
  next : PageId
  deriving DecidableEq, Repr

/-- The loop of `rewrite_chain`: carve hosts out of the entries, one page at a
    time, until the pages can hold what is left. -/
def carveHosts (cap total : Nat) : Nat → Carving → Carving
  | 0, c => c
  | turns + 1, c =>
    let remaining := total - c.carved.length
    let need := if remaining = 0 then 0 else divCeil remaining cap
    if need ≤ c.chainPages.length then c
    else
      match if 1 < remaining then c.hosts else [] with
      | h :: hosts =>
        carveHosts cap total turns
          { c with carved := c.carved.insert h, chainPages := c.chainPages ++ [h], hosts }
      | [] =>
        carveHosts cap total turns
          { c with chainPages := c.chainPages ++ [c.next], next := c.next + 1 }

/-- `rewrite_chain`.  The new head and the next page id. -/
def rewriteChain (pageSize : Nat) (entries : List (CommitId × PageId))
    (hostCandidates : List PageId) (nextPage : PageId) (tail : ChainTail) :
    PagerM (PageId × PageId) := do
  let c := carveHosts (chainCapacity pageSize) entries.length (entries.length + 1)
    { carved := [], chainPages := [], hosts := hostCandidates, next := nextPage }
  let kept := entries.filter fun e => !c.carved.contains e.2
  let head ← writeFreeChain pageSize c.chainPages kept tail
  pure (head, c.next)

end Pagedb
