/-
  Pagedb.BTree.Reach — the pages a root reaches, and what the walk of
  `btree/tree/maintenance.rs` finds of them.

  A page links to the pages its body names: an internal node to its children, a
  leaf to the chains of its long values, a chain page to the next one.  The
  authoritative walk, when it returns, returns exactly the pages its root
  reaches, and each of them is readable as a page of a tree.

  Main results:
    * `collectAllPageIds_spec` — the set a walk returns;
    * `readNodeGuard_eq_ok` and its like — what a read that returned has seen.
-/
import Pagedb.BTree.Maintenance
import Pagedb.BTree.View
import Pagedb.Lib.Reach

namespace Pagedb

open Lib List

/-! ## §1. Links -/

/-- The chain a leaf's value is kept in. -/
def LeafValue.overflowRoot? : LeafValue → Option PageId
  | .inline _ => none
  | .overflow _ root => some root

/-- The pages a page names.  A zero link is an absent slot, not a pointer. -/
def Page.links : Page → List PageId
  | .leaf l => l.records.filterMap fun r => r.2.overflowRoot?
  | .internal node => node.children.filter (· ≠ 0)
  | .overflowRoot _ next _ => [next].filter (· ≠ 0)
  | .overflow next _ => [next].filter (· ≠ 0)
  | .free _ => []

/-- Whether a page belongs to a tree by its kind. -/
def Page.isTree : Page → Bool
  | .free _ => false
  | _ => true

/-- The links of the page under an id. -/
def PageView.links (view : PageView) (id : PageId) : List PageId :=
  match view id with
  | some page => page.links
  | none => []

theorem PageView.links_eq {view : PageView} {id : PageId} {page : Page} (h : view id = some page) :
    view.links id = page.links := by
  unfold PageView.links
  rw [h]

/-- The pages reachable from a root.  A zero root is an empty tree. -/
def PageView.treePages (view : PageView) (root : PageId) : Set PageId :=
  { id | root ≠ 0 ∧ Reach view.links root id }

theorem PageView.eq_root_of_no_links {view : PageView} {root id : PageId}
    (h : view.links root = []) (hid : id ∈ view.treePages root) : id = root := by
  refine hid.2.mem_of_closed (S := fun x => x = root) rfl fun x hx y hy => ?_
  rw [hx, h] at hy
  exact absurd hy not_mem_nil

/-- What an authoritative walk has checked of a page it lists. -/
def PageView.Checked (view : PageView) (id : PageId) : Prop :=
  FIRST_DATA_PAGE ≤ id ∧ ∃ page, view id = some page ∧ page.isTree

/-- What a page is read as: a node, the head of a chain or a later page of it. -/
inductive PageRole where
  | node
  | chainRoot
  | chainPage
  deriving DecidableEq, Repr

/-- The role a page's kind gives it in a tree. -/
def Page.role? : Page → Option PageRole
  | .leaf _ => some .node
  | .internal _ => some .node
  | .overflowRoot _ _ _ => some .chainRoot
  | .overflow _ _ => some .chainPage
  | .free _ => none

/-- The role a page's links are read in. -/
def Page.linkRole : Page → PageRole
  | .internal _ => .node
  | .leaf _ => .chainRoot
  | _ => .chainPage

/-- The page under `id` can be read in a role. -/
def PageView.HasRole (view : PageView) (id : PageId) (role : PageRole) : Prop :=
  ∃ page, view id = some page ∧ page.role? = some role

theorem PageView.HasRole.eq {view : PageView} {id : PageId} {role role' : PageRole}
    (h : view.HasRole id role) (h' : view.HasRole id role') : role = role' := by
  obtain ⟨page, hpage, hrole⟩ := h
  obtain ⟨page', hpage', hrole'⟩ := h'
  rw [hpage] at hpage'
  cases hpage'
  rw [hrole] at hrole'
  cases hrole'
  rfl

/-- The pages `W` are linked as the pages of trees are: every link leads to a
    page of `W` that can be read in the link's role, and a page inside a chain
    is linked from one place. -/
structure PageView.WellLinked (view : PageView) (W : PageId → Prop) : Prop where
  allocatable : ∀ x, W x → FIRST_DATA_PAGE ≤ x
  links : ∀ x page, W x → view x = some page → ∀ y ∈ page.links, W y ∧ view.HasRole y page.linkRole
  single : ∀ x y z, W x → W y → z ∈ view.links x → z ∈ view.links y →
    view.HasRole z .chainPage → x = y

/-! ## §2. Reads that returned -/

theorem readNodeGuard_eq_ok {s t : Session} {id : PageId} {node : Leaf ⊕ Internal}
    (h : readNodeGuard id s = .ok node t) :
    s.pager.view id = some (node.elim .leaf .internal) ∧ s.Quiet t := by
  unfold readNodeGuard at h
  obtain ⟨page, u, hread, h⟩ := bind_eq_ok.mp h
  obtain ⟨hpage, hq⟩ := readPage_eq_ok hread
  rw [hpage]
  cases page with
  | overflowRoot _ _ _ => exact (throw_eq_ok.mp h).elim
  | overflow _ _ => exact (throw_eq_ok.mp h).elim
  | free _ => exact (throw_eq_ok.mp h).elim
  | _ =>
    obtain ⟨rfl, rfl⟩ := pure_eq_ok.mp h
    exact ⟨rfl, hq⟩

theorem readRootPage_eq_ok {s t : Session} {id next : PageId} {refcount : Nat} {data : Bytes}
    (h : readRootPage id s = .ok (refcount, next, data) t) :
    s.pager.view id = some (.overflowRoot refcount next data) ∧ s.Quiet t := by
  unfold readRootPage at h
  obtain ⟨page, u, hread, h⟩ := bind_eq_ok.mp h
  obtain ⟨hpage, hq⟩ := readPage_eq_ok hread
  rw [hpage]
  cases page with
  | overflowRoot _ _ _ =>
    obtain ⟨heq, rfl⟩ := pure_eq_ok.mp h
    injection heq with h₁ h₂
    injection h₂ with h₂ h₃
    exact ⟨by rw [h₁, h₂, h₃], hq⟩
  | _ => exact (throw_eq_ok.mp h).elim

theorem readChainPage_eq_ok {s t : Session} {id next : PageId} {data : Bytes}
    (h : readChainPage id s = .ok (next, data) t) :
    s.pager.view id = some (.overflow next data) ∧ s.Quiet t := by
  unfold readChainPage at h
  obtain ⟨page, u, hread, h⟩ := bind_eq_ok.mp h
  obtain ⟨hpage, hq⟩ := readPage_eq_ok hread
  rw [hpage]
  cases page with
  | overflow _ _ =>
    obtain ⟨heq, rfl⟩ := pure_eq_ok.mp h
    injection heq with h₁ h₂
    exact ⟨by rw [h₁, h₂], hq⟩
  | _ => exact (throw_eq_ok.mp h).elim

theorem Session.Quiet.view {s t : Session} (h : s.Quiet t) : t.pager.view = s.pager.view := by
  obtain ⟨faults, rfl⟩ := h
  rfl

/-! ## §3. The walk -/

/-- What a walk found of the pages under `start`, read as `view`. -/
abbrev PageView.Walked (view : PageView) (start seen found : List PageId) : Prop :=
  Explored view.links view.Checked start seen found

theorem collectChainFrom_ok (turns : Nat) :
    ∀ (id : PageId) (visited found : List PageId) (s t : Session),
      collectChainFrom turns id visited s = .ok found t →
      s.Quiet t ∧ s.pager.view.Walked ([id].filter (· ≠ 0)) visited found := by
  induction turns with
  | zero =>
    intro id visited found s t h
    exact (throw_eq_ok.mp h).elim
  | succ turns ih =>
    intro id visited found s t h
    rw [collectChainFrom] at h
    split_ifs at h with hzero hlow hseen
    · obtain ⟨rfl, rfl⟩ := pure_eq_ok.mp h
      rw [hzero]
      exact ⟨Session.Quiet.refl s, Explored.nil⟩
    · exact (throw_eq_ok.mp h).elim
    · exact (throw_eq_ok.mp h).elim
    · obtain ⟨⟨next, data⟩, u, hread, h⟩ := bind_eq_ok.mp h
      obtain ⟨hpage, hq⟩ := readChainPage_eq_ok hread
      obtain ⟨hq', hw⟩ := ih next (id :: visited) found u t h
      rw [hq.view] at hw
      refine ⟨hq.trans hq', ?_⟩
      rw [filter_cons_of_pos (by simpa using hzero), filter_nil]
      refine Explored.enter ⟨Nat.le_of_not_lt hlow, _, hpage, rfl⟩ ?_
      rw [PageView.links_eq hpage]
      exact hw

theorem collectOverflowChain_ok {root : PageId} {visited found : List PageId} {s t : Session}
    (h : collectOverflowChain root visited s = .ok found t) :
    s.Quiet t ∧ s.pager.view.Walked [root] visited found := by
  unfold collectOverflowChain at h
  split_ifs at h with hlow hseen
  · exact (throw_eq_ok.mp h).elim
  · obtain ⟨rfl, rfl⟩ := pure_eq_ok.mp h
    exact ⟨Session.Quiet.refl s, Explored.skip hseen⟩
  · obtain ⟨⟨refcount, next, data⟩, u, hread, h⟩ := bind_eq_ok.mp h
    obtain ⟨hpage, hq⟩ := readRootPage_eq_ok hread
    obtain ⟨_, v, hget, h⟩ := bind_eq_ok.mp h
    obtain ⟨rfl, rfl⟩ := get_eq_ok.mp hget
    obtain ⟨hq', hw⟩ := collectChainFrom_ok _ next (root :: visited) found _ t h
    rw [hq.view] at hw
    refine ⟨hq.trans hq', Explored.enter ⟨Nat.le_of_not_lt hlow, _, hpage, rfl⟩ ?_⟩
    rw [PageView.links_eq hpage]
    exact hw

theorem collectLeafChains_ok (records : Records) : ∀ (visited found : List PageId) (s t : Session),
      collectLeafChains records visited s = .ok found t →
      s.Quiet t ∧ s.pager.view.Walked (records.filterMap fun r => r.2.overflowRoot?) visited found := by
  induction records with
  | nil =>
    intro visited found s t h
    obtain ⟨rfl, rfl⟩ := pure_eq_ok.mp h
    exact ⟨Session.Quiet.refl s, Explored.nil⟩
  | cons r records ih =>
    obtain ⟨key, value⟩ := r
    intro visited found s t h
    cases value with
    | inline bytes => exact ih visited found s t h
    | overflow len root =>
      obtain ⟨mid, u, hchain, h⟩ := bind_eq_ok.mp h
      obtain ⟨hq, hw⟩ := collectOverflowChain_ok hchain
      obtain ⟨hq', hw'⟩ := ih mid found u t h
      rw [hq.view] at hw'
      exact ⟨hq.trans hq', hw.trans hw'⟩

theorem collectNodesFrom_ok (turns : Nat) : ∀ (stack visited found : List PageId) (s t : Session),
      collectNodesFrom turns stack visited s = .ok found t →
      s.Quiet t ∧ s.pager.view.Walked stack visited found := by
  induction turns with
  | zero =>
    intro stack visited found s t h
    cases stack with
    | nil =>
      obtain ⟨rfl, rfl⟩ := pure_eq_ok.mp h
      exact ⟨Session.Quiet.refl s, Explored.nil⟩
    | cons id stack => exact (throw_eq_ok.mp h).elim
  | succ turns ih =>
    intro stack visited found s t h
    cases stack with
    | nil =>
      obtain ⟨rfl, rfl⟩ := pure_eq_ok.mp h
      exact ⟨Session.Quiet.refl s, Explored.nil⟩
    | cons id stack =>
      rw [collectNodesFrom] at h
      split_ifs at h with hlow hseen
      · exact (throw_eq_ok.mp h).elim
      · obtain ⟨hq, hw⟩ := ih stack visited found s t h
        exact ⟨hq, (Explored.skip hseen).trans hw⟩
      · obtain ⟨node, u, hread, h⟩ := bind_eq_ok.mp h
        obtain ⟨hpage, hq⟩ := readNodeGuard_eq_ok hread
        have hchecked : ∀ page : Page, s.pager.view id = some page → page.isTree →
            s.pager.view.Checked id :=
          fun page hp htree => ⟨Nat.le_of_not_lt hlow, page, hp, htree⟩
        cases node with
        | inl leaf =>
          -- the chains of a leaf are walked before the rest of the stack
          obtain ⟨mid, v, hchains, h⟩ := bind_eq_ok.mp h
          obtain ⟨hq', hw⟩ := collectLeafChains_ok leaf.records _ mid u v hchains
          obtain ⟨hq'', hw'⟩ := ih stack mid found v t h
          rw [hq.view] at hw
          rw [(hq.trans hq').view] at hw'
          have hleaf : s.pager.view.Walked [id] visited mid := by
            refine Explored.enter (hchecked _ hpage rfl) ?_
            rw [PageView.links_eq hpage]
            exact hw
          exact ⟨(hq.trans hq').trans hq'', hleaf.trans hw'⟩
        | inr node =>
          -- the children wait on top of the stack
          obtain ⟨hq', hw⟩ := ih _ (id :: visited) found u t h
          rw [hq.view] at hw
          refine ⟨hq.trans hq', ?_⟩
          have hmid : s.pager.view.Walked
              (s.pager.view.links id ++ stack) (id :: visited) found := by
            refine hw.congr_start fun y => ?_
            rw [PageView.links_eq hpage, mem_append, mem_append, mem_reverse]
            rfl
          exact hmid.enter_append (hchecked _ hpage rfl)

/-- **What the walk returns.**  An `Ok` set is the set of pages the root
    reaches, and each of them was read as a page of a tree. -/
theorem collectAllPageIds_spec {s t : Session} {ids : List PageId}
    (h : collectAllPageIds s = .ok ids t) :
    s.Quiet t ∧ (∀ id, id ∈ ids ↔ id ∈ s.pager.view.treePages s.rootPageId)
      ∧ ∀ id ∈ ids, s.pager.view.Checked id := by
  unfold collectAllPageIds at h
  rw [get_bind] at h
  split_ifs at h with hroot
  · obtain ⟨rfl, rfl⟩ := pure_eq_ok.mp h
    refine ⟨Session.Quiet.refl s, fun id => ?_, nofun⟩
    constructor
    · intro hid
      exact absurd hid not_mem_nil
    · intro hid
      exact absurd hroot hid.1
  · obtain ⟨found, u, hwalk, h⟩ := bind_eq_ok.mp h
    obtain ⟨rfl, rfl⟩ := pure_eq_ok.mp h
    obtain ⟨hq, hw⟩ := collectNodesFrom_ok _ _ _ found s u hwalk
    refine ⟨hq, fun id => ?_, fun id hid => ?_⟩
    · rw [mem_mergeSort, hw.mem_iff]
      constructor
      · rintro ⟨r, hr, hreach⟩
        rw [mem_singleton.mp hr] at hreach
        exact ⟨hroot, hreach⟩
      · intro hid
        exact ⟨s.rootPageId, mem_singleton_self _, hid.2⟩
    · exact (hw.sound id (mem_mergeSort.mp hid) not_mem_nil).1

end Pagedb
