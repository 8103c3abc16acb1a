/-
  Pagedb.BTree.Chain — the pages of overflow values.

    * `leafValueFor_spec` — a new value owns the pages it was written to;
    * `releaseOld_spec`   — a value that left the tree gives all of them back.
-/
import Pagedb.BTree.Ledger

namespace Pagedb

open Lib List

variable {source owned : List PageId}

/-! ## §1. Writing a chain -/

variable {s s' : Session}

theorem nextChainPage_spec {more : Bool} {next : PageId} (hl : Ledger source s owned)
    (hrun : nextChainPage more s = .ok next s') :
    s.Touches [] s' ∧ (more = false ∧ next = 0 ∧ Ledger source s' owned
      ∨ more = true ∧ next ≠ 0 ∧ Ledger source s' (next :: owned)) := by
  unfold nextChainPage at hrun
  cases more with
  | false =>
    obtain ⟨rfl, rfl⟩ := pure_eq_ok.mp hrun
    exact ⟨Session.Touches.refl s, Or.inl ⟨rfl, rfl, hl⟩⟩
  | true =>
    obtain ⟨hl', htouch⟩ := hl.allocate hrun
    refine ⟨htouch, Or.inr ⟨rfl, ?_, hl'⟩⟩
    rintro rfl
    exact hl'.zero_notMem mem_cons_self

/-- The page `write_chain` writes for one chunk. -/
def chainPage (isRoot : Bool) (next : PageId) (chunk : Bytes) : Page :=
  if isRoot then .overflowRoot 1 next chunk else .overflow next chunk

/-- The chunk is no longer than its page has room for. -/
def Page.Sized (pageSize : Nat) : Page → Prop
  | .overflow _ data => data.length ≤ overflowPageCapacity pageSize
  | .overflowRoot _ _ data => data.length ≤ overflowRootCapacity pageSize
  | _ => True

theorem chainPage_sized {isRoot : Bool} {next : PageId} {value : Bytes} {pageSize : Nat} :
    (chainPage isRoot next (value.take (if isRoot then overflowRootCapacity pageSize
      else overflowPageCapacity pageSize))).Sized pageSize := by
  cases isRoot <;> exact length_take_le _ value

theorem writeChainFrom_spec (turns : Nat) :
    ∀ {pageId : PageId} {value : Bytes} {isRoot : Bool} {owned : List PageId} {s s' : Session}
      {u : Unit}, Ledger source s (pageId :: owned) →
      writeChainFrom turns pageId value isRoot s = .ok u s' →
      ∃ pages next chunk rest, s'.pager.page pageId = some (chainPage isRoot next chunk)
        ∧ value = chunk ++ rest ∧ ChainFrom s'.pager pages next rest
        ∧ Ledger source s' (pageId :: (pages ++ owned)) ∧ s.Touches (pageId :: pages) s'
        ∧ ∀ q ∈ pageId :: pages, ∃ page, s'.pager.page q = some page ∧ page.Sized s.pageSize := by
  induction turns with
  | zero =>
    intro pageId value isRoot owned s s' u _ hrun
    exact absurd (throw_eq_ok.mp hrun) not_false
  | succ turns ih =>
    intro pageId value isRoot owned s s' u hl hrun
    unfold writeChainFrom at hrun
    rw [get_bind] at hrun
    dsimp only at hrun
    generalize hcap : (if isRoot then overflowRootCapacity s.pageSize
      else overflowPageCapacity s.pageSize) = cap at hrun
    obtain ⟨next, t, hnext, hrun⟩ := bind_eq_ok.mp hrun
    obtain ⟨_, w, hwrite, hrun⟩ := bind_eq_ok.mp hrun
    obtain ⟨htouch, hcases⟩ := nextChainPage_spec hl hnext
    obtain ⟨pager, hw, hpage, hsame⟩ := writePage_eq_ok hwrite
    have htouch' := htouch.trans (writePage_touches hwrite)
    have hsized : (chainPage isRoot next (value.take cap)).Sized s.pageSize := by
      rw [← hcap]
      exact chainPage_sized
    rcases hcases with ⟨hmore, rfl, hl'⟩ | ⟨hmore, hne, hl'⟩
    · -- the last page: the whole rest of the value fits
      rw [if_pos rfl] at hrun
      obtain ⟨-, rfl⟩ := pure_eq_ok.mp hrun
      have hfits : value.length ≤ cap := Nat.le_of_not_lt (of_decide_eq_false hmore)
      have hroot : w.pager.page pageId = some (chainPage isRoot 0 (value.take cap)) := by
        rw [hw]
        exact hpage
      refine ⟨[], 0, value.take cap, [], hroot, ?_, ⟨rfl, rfl⟩, writePage_ledger hl' hwrite, htouch',
        fun q hq => ?_⟩
      · rw [append_nil, take_of_length_le hfits]
      · rw [mem_singleton.mp hq]
        exact ⟨_, hroot, hsized⟩
    · rw [if_neg hne] at hrun
      have hlw := writePage_ledger hl' hwrite
      obtain ⟨pages, next', chunk, rest, hnextPage, hvalue, hchain, hl'', htouch'', hrest⟩ :=
        ih hlw hrun
      have hfresh : pageId ∉ next :: pages := by
        have hnodup : ((next :: pages) ++ pageId :: owned).Nodup := hl''.nodup
        intro hmem
        exact disjoint_of_nodup_append hnodup hmem mem_cons_self
      have hroot : s'.pager.page pageId = some (chainPage isRoot next (value.take cap)) := by
        rw [htouch''.page hfresh, hw]
        exact hpage
      refine ⟨next :: pages, next, value.take cap, value.drop cap, hroot,
        (take_append_drop cap value).symm,
        ⟨rfl, next', chunk, rest, hnextPage, hvalue, hchain⟩, ?_, htouch'.trans htouch'',
        fun q hq => ?_⟩
      · have hperm : ((next :: pages) ++ pageId :: owned).Perm
            (pageId :: ((next :: pages) ++ owned)) := perm_middle
        exact hl''.perm hperm.symm
      · rcases mem_cons.mp hq with rfl | hq
        · exact ⟨_, hroot, hsized⟩
        · obtain ⟨page, hpage', hfit⟩ := hrest q hq
          exact ⟨page, hpage', Session.Touches.pageSize htouch' ▸ hfit⟩

theorem writeChain_spec {value : Bytes} {root : PageId} (hl : Ledger source s owned)
    (hrun : writeChain value s = .ok root s') :
    ∃ pages, Stored.Held s'.pager ⟨value, root :: pages⟩
      ∧ Ledger source s' (root :: pages ++ owned) ∧ s.Touches (root :: pages) s' := by
  unfold writeChain at hrun
  obtain ⟨id, t, halloc, hrun⟩ := bind_eq_ok.mp hrun
  obtain ⟨_, w, hwrite, hrun⟩ := bind_eq_ok.mp hrun
  obtain ⟨rfl, rfl⟩ := pure_eq_ok.mp hrun
  obtain ⟨hl', htouch⟩ := hl.allocate halloc
  obtain ⟨pages, next, chunk, rest, hpage, hvalue, hchain, hl'', htouch', -⟩ :=
    writeChainFrom_spec _ hl' hwrite
  exact ⟨pages, ⟨next, chunk, rest, hpage, hvalue, hchain⟩, hl'', htouch.trans htouch'⟩

/-- **A new value owns the pages it was written to.** -/
theorem leafValueFor_spec {value : Bytes} {lv : LeafValue} (hl : Ledger source s owned)
    (hrun : leafValueFor value s = .ok lv s') :
    ∃ v : Stored, v.bytes = value ∧ v.leafValue = lv ∧ v.Held s'.pager
      ∧ Ledger source s' (v.pages ++ owned) ∧ s.Touches v.pages s' := by
  unfold leafValueFor at hrun
  rw [get_bind] at hrun
  split_ifs at hrun with hbig
  · obtain ⟨root, t, hchain, hrun⟩ := bind_eq_ok.mp hrun
    obtain ⟨rfl, rfl⟩ := pure_eq_ok.mp hrun
    obtain ⟨pages, hheld, hl', htouch⟩ := writeChain_spec hl hchain
    exact ⟨⟨value, root :: pages⟩, rfl, rfl, hheld, hl', htouch⟩
  · obtain ⟨rfl, rfl⟩ := pure_eq_ok.mp hrun
    exact ⟨⟨value, []⟩, rfl, rfl, trivial, hl, Session.Touches.refl s⟩

/-! ## §2. Releasing a chain -/

/-- `release` of a chain nobody else refers to lists the chain. -/
theorem release_returns {root : PageId} {pages : List PageId} {bytes : Bytes}
    (hheld : Stored.Held s.pager ⟨bytes, root :: pages⟩) (hnodup : (root :: pages).Nodup)
    (hzero : 0 ∉ pages) (newPage : PageId) :
    Returns Session.Clear (release root newPage) s fun r t =>
      r = .freed (root :: pages) ∧ s.Quiet t := by
  obtain ⟨next, chunk, rest, hpage, -, hrest⟩ := hheld
  unfold release
  refine (readRootPage_returns hpage).bind fun r t hr => ?_
  obtain ⟨rfl, hq⟩ := hr
  dsimp only
  rw [if_pos (Nat.le_refl 1)]
  refine Returns.get ?_
  refine (walkRest_returns (hrest.congr fun q _ => hq.page q) hnodup hzero).bind fun r u hr => ?_
  rw [hr.1]
  exact Returns.pure ⟨rfl, hq.trans hr.2⟩

/-- The handler around `release` only ever throws again. -/
theorem releaseGuarded_eq_ok {root cow : PageId} {undo : TreeM Unit} {r : ReleaseResult}
    (hrun : (tryCatch (release root cow) fun e =>
      if e = .cancelled then throw e
      else do
        freePage cow
        undo
        throw e : TreeM ReleaseResult) s = .ok r s') : release root cow s = .ok r s' := by
  rcases tryCatch_eq_ok hrun with hok | ⟨e, x, -, hhandler⟩
  · exact hok
  · split_ifs at hhandler with hcancel
    · exact absurd (throw_eq_ok.mp hhandler) not_false
    · obtain ⟨_, y, -, hhandler⟩ := bind_eq_ok.mp hhandler
      obtain ⟨_, z, -, hhandler⟩ := bind_eq_ok.mp hhandler
      exact absurd (throw_eq_ok.mp hhandler) not_false

/-- **A value that left the tree gives all its pages back.** -/
theorem releaseOld_spec {undo : TreeM Unit} {v : Option Stored} {u : Unit}
    (hheld : ∀ w ∈ v, w.Held s.pager) (hl : Ledger source s ((v.elim [] Stored.pages) ++ owned))
    (hrun : releaseOld undo (v.map Stored.leafValue) s = .ok u s') :
    Ledger source s' owned ∧ s.Touches [] s' := by
  cases v with
  | none =>
    obtain ⟨-, rfl⟩ := pure_eq_ok.mp hrun
    exact ⟨hl, Session.Touches.refl s⟩
  | some v =>
    have hheld := hheld v rfl
    obtain ⟨bytes, pages⟩ := v
    cases pages with
    | nil =>
      obtain ⟨-, rfl⟩ := pure_eq_ok.mp hrun
      exact ⟨hl, Session.Touches.refl s⟩
    | cons root pages =>
      have hl : Ledger source s ((root :: pages) ++ owned) := hl
      obtain ⟨cow, t, halloc, hrun⟩ := bind_eq_ok.mp (show (_ >>= _ : TreeM Unit) s = _ from hrun)
      obtain ⟨result, w, hcatch, hrun⟩ := bind_eq_ok.mp hrun
      obtain ⟨hlt, htouch⟩ := hl.allocate halloc
      have hzero : 0 ∉ pages := fun h0 =>
        hl.zero_notMem (mem_append_left _ (mem_cons_of_mem _ h0))
      have hheld' := htouch.held hheld fun p _ => not_mem_nil
      obtain ⟨rfl, hq⟩ := (release_returns hheld' hl.nodup.of_append_left hzero cow).sound _ _
        (releaseGuarded_eq_ok hcatch)
      have hlw := hlt.of_quiet hq
      obtain ⟨_, y, hfrees, hfree⟩ := bind_eq_ok.mp hrun
      have hperm : ((root :: pages) ++ (cow :: owned)).Perm
          (cow :: ((root :: pages) ++ owned)) := perm_middle
      obtain ⟨hly, htouchy⟩ := Ledger.freeAll _ (hlw.perm hperm) hfrees
      obtain ⟨hls, htouchs⟩ := hly.free hfree
      exact ⟨hls, ((htouch.trans (Session.Touches.of_quiet hq)).trans htouchy).trans htouchs⟩

end Pagedb
