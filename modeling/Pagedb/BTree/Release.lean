/-
  Pagedb.BTree.Release — an overflow value that cannot be released
  (`btree/tree/write.rs`).

  A put or a delete that takes an overflow value out of its leaf then reads the
  value's chain, to give its pages back.  If that read fails the record is put
  back, and the chain of the new value is freed again.

  The chains of the tree need not be sound here: `Fragile` asks only that a walk
  along a value's links stays on pages of the tree.

  Main results:
    * `treeGet_agree` — a lookup depends on the nodes and on the pages its walk can reach;
    * `undo_fragile` — a failed release and its undo leave the tree as it was;
    * `failed_release_keeps_records` — for `put` and `delete`.
-/
import Pagedb.BTree.Calls
import Pagedb.BTree.OverflowChains

namespace Pagedb

open Lib List

/-! ## §1. Reading a chain that may be broken -/

/-- The link of a chain page. -/
def Page.chainNext : Page → Option PageId
  | .overflow next _ => some next
  | .overflowRoot _ next _ => some next
  | _ => none

/-- The pages link to each other only. -/
def ClosedPages (pager : Pager) (pages : List PageId) : Prop :=
  ∀ p ∈ pages, ∀ page next, pager.page p = some page → page.chainNext = some next →
    next = 0 ∨ next ∈ pages

section Agree

variable {s s' : Session} {pages : List PageId}

variable (hs : s.Clear) (hs' : s'.Clear)

include hs hs'

/-- A page that both pagers have alike is read alike. -/
theorem readPage_agree {α : Type} {id : PageId} (hpage : s'.pager.page id = s.pager.page id)
    {f : Page → TreeM α}
    (hf : ∀ page, s.pager.page id = some page → outcome (f page s) = outcome (f page s')) :
    outcome ((readPage id >>= f) s) = outcome ((readPage id >>= f) s') := by
  have hread := readPage_clear hs id
  have hread' := readPage_clear hs' id
  rw [hpage] at hread'
  cases hp : s.pager.page id with
  | none =>
    rw [hp] at hread hread'
    rw [bind_of_error hread, bind_of_error hread']
    rfl
  | some page =>
    rw [hp] at hread hread'
    rw [bind_of_ok hread, bind_of_ok hread']
    exact hf page hp

variable (hclosed : ClosedPages s.pager pages)
  (hpage : ∀ p ∈ pages, s'.pager.page p = s.pager.page p)

include hclosed hpage

/-- The loop of `read_chain` depends on the value's own pages. -/
theorem readChainFrom_agree (totalLen turns : Nat) :
    ∀ {seen : List PageId} {next : PageId} {out : Bytes}, (next = 0 ∨ next ∈ pages) →
      outcome (readChainFrom totalLen turns seen next out s)
        = outcome (readChainFrom totalLen turns seen next out s') := by
  induction turns with
  | zero =>
    intro seen next out _
    rfl
  | succ turns ih =>
    intro seen next out hnext
    unfold readChainFrom readChainPage
    split_ifs with hzero hcycle
    · rfl
    · rfl
    · have hmem : next ∈ pages := hnext.resolve_left hzero
      rw [bind_assoc]
      refine readPage_agree hs hs' (hpage next hmem) fun page hp => ?_
      cases page with
      | overflow after data =>
        rw [pure_bind]
        dsimp only
        split_ifs with hlong
        · rfl
        · exact ih (hclosed next hmem _ after hp rfl)
      | _ => rfl

theorem readChain_agree {root : PageId} (hroot : root ∈ pages) (totalLen : Nat) :
    outcome (readChain root totalLen s) = outcome (readChain root totalLen s') := by
  unfold readChain readRootPage
  rw [bind_assoc]
  refine readPage_agree hs hs' (hpage root hroot) fun page hp => ?_
  cases page with
  | overflowRoot refcount next data =>
    rw [pure_bind]
    dsimp only
    split_ifs with hlong
    · rfl
    · rw [get_bind, get_bind]
      refine outcome_bind ?_ fun out u v => ?_
      · -- both loops have turns to spare
        have hvisited : ∀ pager : Pager, pager.page root = s.pager.page root →
            Visited pager [root] := by
          intro pager hsame
          refine ⟨nodup_singleton root, fun q hq => ?_⟩
          rw [mem_singleton.mp hq, hsame, hp]
          rfl
        have hmore := @readChainFrom_turns totalLen (s'.pager.pageCount + 1)
          (s.pager.pageCount + 1) [root] next data s (hvisited _ rfl)
          (by rw [length_singleton]; omega)
        have hmore' := @readChainFrom_turns totalLen (s.pager.pageCount + 1)
          (s'.pager.pageCount + 1) [root] next data s' (hvisited _ (hpage root hroot))
          (by rw [length_singleton]; omega)
        rw [← hmore, ← hmore', Nat.add_comm (s'.pager.pageCount + 1)]
        exact readChainFrom_agree hs hs' hclosed hpage totalLen _
          (hclosed root hroot _ next hp rfl)
      · split_ifs with hlen
        · rfl
        · rfl
  | _ => rfl

end Agree

/-! ## §2. Trees whose chains may be broken -/

/-- The session shows the nodes of `i`; a walk along the links of a value stays on
    pages of the tree, its own or others; and the books are right.  `held` are pages
    the session owns outside the tree. -/
structure Fragile (source others held : List PageId) (s : Session) (i : Image) : Prop where
  outline : Outline s i
  dirty : ∀ p ∈ s.dirtyLeaves, p ∈ i.ids
  closed : ∃ reach ⊆ i.pages, valuePages i.items ⊆ reach ∧ ClosedPages s.pager reach
  ledger : Ledger source s (held ++ (i.pages ++ others))

section Fragile

variable {source others held held' : List PageId} {s s' : Session} {i : Image}

theorem ClosedPages.congr {pager pager' : Pager} {pages : List PageId} (h : ClosedPages pager pages)
    (hpage : ∀ p ∈ pages, pager'.page p = pager.page p) : ClosedPages pager' pages := by
  intro p hp page next hp' hlink
  exact h p hp page next ((hpage p hp).symm.trans hp') hlink

theorem ClosedPages.cons {pager : Pager} {pages : List PageId} {q next : PageId} {page : Page}
    (h : ClosedPages pager pages) (hpage : pager.page q = some page)
    (hlink : page.chainNext = some next) (hnext : next = 0 ∨ next ∈ pages) :
    ClosedPages pager (q :: pages) := by
  intro p hp page' next' hpage' hlink'
  rcases mem_cons.mp hp with rfl | hp
  · rw [hpage] at hpage'
    cases hpage'
    rw [hlink] at hlink'
    cases hlink'
    exact hnext.imp_right (mem_cons_of_mem _)
  · exact (h p hp page' next' hpage' hlink').imp_right (mem_cons_of_mem _)

/-- The chain of a sound value links to its own pages only. -/
theorem ChainFrom.closed {pager : Pager} (pages : List PageId) :
    ∀ {link : PageId} {data : Bytes}, ChainFrom pager pages link data →
      (link = 0 ∨ link ∈ pages) ∧ ClosedPages pager pages := by
  induction pages with
  | nil =>
    intro link data h
    exact ⟨Or.inl h.1, nofun⟩
  | cons q pages ih =>
    intro link data h
    obtain ⟨rfl, next, chunk, rest, hpage, -, hrest⟩ := h
    obtain ⟨hnext, hclosed⟩ := ih hrest
    exact ⟨Or.inr mem_cons_self, hclosed.cons hpage rfl hnext⟩

theorem Stored.Held.closed {pager : Pager} {v : Stored} (h : v.Held pager) :
    ClosedPages pager v.pages := by
  obtain ⟨bytes, pages⟩ := v
  cases pages with
  | nil => exact nofun
  | cons root pages =>
    obtain ⟨next, chunk, rest, hpage, -, hrest⟩ := h
    obtain ⟨hnext, hclosed⟩ := ChainFrom.closed pages hrest
    exact hclosed.cons hpage rfl hnext

theorem mem_valuePages {r : Bytes × Stored} (hr : r ∈ recordsOf i.items) {p : PageId}
    (hp : p ∈ r.2.pages) : p ∈ i.pages :=
  mem_append_right _ (mem_flatMap.mpr ⟨r, hr, hp⟩)

/-- Allocating, freeing, and writing pages held outside the tree changes nothing
    in it. -/
theorem Fragile.touch (h : Fragile source others held s i) {ws : List PageId}
    (ht : s.Touches ws s') (hl : Ledger source s' (held' ++ (i.pages ++ others)))
    (hws : ∀ p ∈ i.pages, p ∉ ws) : Fragile source others held' s' i := by
  have hids : ∀ p ∈ i.ids, p ∉ ws := fun p hp => hws p (mem_append_left _ hp)
  have hrep : ∀ e ∈ i.cells, s'.Shows e.1 e.2 := by
    intro e he
    refine ht.shows (hids e.1 ?_) (h.outline.rep e he)
    cases i with
    | empty => cases he
    | tree t =>
      have hmem : e.1 ∈ t.cells.map Prod.fst := mem_map_of_mem he
      rw [Node.cells_map_fst] at hmem
      exact hmem
  obtain ⟨n, f, r, c, d, pager, rfl, hpage⟩ := ht
  refine ⟨⟨hrep, h.outline.ordered, h.outline.nodup, h.outline.zero, fun p hp => ?_,
    h.outline.root⟩, h.dirty, ?_, hl⟩
  · obtain ⟨leaf, hleaf⟩ := h.outline.paged p hp
    exact ⟨leaf, (hpage p (hids p (h.dirty p hp))).trans hleaf⟩
  · obtain ⟨reach, hreach, hvalues, hclosed⟩ := h.closed
    exact ⟨reach, hreach, hvalues, hclosed.congr fun p hp => hpage p (hws p (hreach hp))⟩

theorem Fragile.quiet (h : Fragile source others held s i) (hq : s.Quiet s') :
    Fragile source others held s' i :=
  h.touch (Session.Touches.of_quiet hq) (h.ledger.of_quiet hq) fun _ _ => not_mem_nil

/-- A lookup when no await fails: the descent, then the value. -/
theorem Outline.treeGet_eq {h : Nat} {t : PageTree h} (ho : Outline s (.tree t)) (hs : s.Clear)
    (k : Bytes) :
    treeGet k s = resolveValue ((find k (recordsOf t.items)).map Stored.leafValue) s := by
  have hdescend := ho.descend_returns k
  obtain ⟨r, u, hrun, hu⟩ := hdescend.total hs
  obtain ⟨hq, c, id, left, right, old, rfl, hcut, -, hrecords⟩ := hdescend.sound r u hrun
  obtain rfl := hq.eq_of_clear hs hu
  have hfind : find k (recordsOf (c.plug (.leaf id (around left k old right))).items) = old := by
    rw [Cut.records_eq]
    exact find_around (Around.of_items hcut.before hcut.after)
  unfold treeGet
  rw [get_bind, if_neg ho.root_ne_zero, bind_of_ok hrun, hfind]
  dsimp only
  rw [Leaf.get_around hcut.around hrecords]

/-- **A lookup depends on the nodes and on the pages its walk can reach.** -/
theorem treeGet_agree (ho : Outline s i) (ho' : Outline s' i) (hs : s.Clear) (hs' : s'.Clear)
    {reach : List PageId} (hvalues : valuePages i.items ⊆ reach) (hclosed : ClosedPages s.pager reach)
    (hpage : ∀ p ∈ reach, s'.pager.page p = s.pager.page p) (k : Bytes) :
    outcome (treeGet k s) = outcome (treeGet k s') := by
  cases i with
  | empty =>
    have hroot : s.rootPageId = 0 := ho.root.symm
    have hroot' : s'.rootPageId = 0 := ho'.root.symm
    unfold treeGet
    rw [get_bind, get_bind, if_pos hroot, if_pos hroot']
    rfl
  | tree t =>
    rw [ho.treeGet_eq hs, ho'.treeGet_eq hs']
    cases hfind : find k (recordsOf t.items) with
    | none => rfl
    | some v =>
      obtain ⟨bytes, pages⟩ := v
      cases pages with
      | nil => rfl
      | cons root pages =>
        have hmem : (k, ⟨bytes, root :: pages⟩) ∈ recordsOf t.items :=
          ho.ordered.ascending.find_eq_some.mp hfind
        exact outcome_bind (readChain_agree hs hs' hclosed hpage
          (hvalues (mem_flatMap.mpr ⟨_, hmem, mem_cons_self⟩)) bytes.length) fun _ _ _ => rfl

end Fragile

/-! ## §3. A failed release -/

/-- From `s` to `s'` only the pager moved, and its pages only at `id`. -/
def Session.Repaged (id : PageId) (s s' : Session) : Prop :=
  ∃ pager, s' = { s with pager := pager } ∧ ∀ p, p ≠ id → pager.page p = s.pager.page p

section Repaged

variable {s s' s₀ : Session} {id : PageId}

theorem Session.Repaged.quiet (h : s₀.Repaged id s) (hq : s.Quiet s') : s₀.Repaged id s' := by
  obtain ⟨pager, rfl, hpage⟩ := h
  obtain ⟨faults, rfl⟩ := hq
  exact ⟨_, rfl, hpage⟩

theorem Session.Repaged.touches (h : s.Repaged id s') : s.Touches [id] s' := by
  obtain ⟨pager, rfl, hpage⟩ := h
  exact ⟨_, _, _, _, _, _, rfl, fun p hp => hpage p fun heq => hp (heq ▸ mem_singleton_self _)⟩

theorem Session.Repaged.ledger {source owned : List PageId} (h : s.Repaged id s')
    (hl : Ledger source s owned) : Ledger source s' owned := by
  obtain ⟨pager, rfl, -⟩ := h
  exact ⟨hl.four, hl.law, hl.drawn⟩

theorem repaged_of_quiet {α : Type} {x : TreeM α} (hx : ∀ t : Session, Keeps t.Quiet x) :
    Keeps (s₀.Repaged id) x :=
  fun s hs => hs.quiet (hx s s (Session.Quiet.refl s))

theorem writePage_repaged (page : Page) : Keeps (s₀.Repaged id) (writePage id page) := by
  unfold writePage
  refine (repaged_of_quiet fun _ => await_quiet).bind fun _ => ?_
  refine Keeps.bind ?_ fun _ => repaged_of_quiet fun _ => await_quiet
  refine Keeps.modify fun s hs => ?_
  obtain ⟨pager, rfl, hpage⟩ := hs
  refine ⟨_, rfl, fun p hp => ?_⟩
  exact (Pager.page_write_ne pager page hp).trans (hpage p hp)

theorem walkChain_quiet (turns : Nat) :
    ∀ (seen : List PageId) (cur : PageId), Keeps s₀.Quiet (walkChain turns seen cur) := by
  induction turns with
  | zero =>
    intro seen cur
    exact Keeps.throw _
  | succ turns ih =>
    intro seen cur
    unfold walkChain
    refine Keeps.ite (Keeps.pure _) (Keeps.ite (Keeps.throw _) ?_)
    exact (Reading.quiet fun _ => readChainPage_reading cur).bind fun r => (ih _ r.1).bind fun _ => Keeps.pure _

theorem release_repaged (root : PageId) : Keeps (s₀.Repaged id) (release root id) := by
  unfold release
  refine (repaged_of_quiet fun _ => Reading.quiet fun _ => readRootPage_reading root).bind fun r => ?_
  obtain ⟨refcount, next, data⟩ := r
  refine Keeps.ite ?_ ?_
  · refine repaged_of_quiet fun t => Keeps.get.bind fun u => ?_
    exact (walkChain_quiet _ _ _).bind fun _ => Keeps.pure _
  · exact (writePage_repaged _).bind fun _ => Keeps.pure _

end Repaged

/-- A freed page is on one of the two lists, once more than before. -/
theorem freePage_lists {s s' : Session} {id : PageId} {u : Unit} (hrun : freePage id s = .ok u s') :
    s'.pager = s.pager ∧ s'.scheduledFrees = s.scheduledFrees
      ∧ (s'.freed ++ s'.freedReusable).Perm (id :: (s.freed ++ s.freedReusable)) := by
  unfold freePage at hrun
  obtain ⟨_, t, hassert, hrun⟩ := bind_eq_ok.mp hrun
  obtain rfl := assertUsable_eq_ok hassert
  obtain rfl := modify_eq_ok.mp hrun
  split_ifs with hreuse
  · refine ⟨rfl, rfl, ?_⟩
    show (s.freed ++ (s.freedReusable ++ [id])).Perm _
    grind
  · refine ⟨rfl, rfl, ?_⟩
    show ((s.freed ++ [id]) ++ s.freedReusable).Perm _
    grind

theorem freePages_lists (ids : List PageId) :
    ∀ {s s' : Session} {u : Unit}, freePages ids s = .ok u s' → s'.scheduledFrees = s.scheduledFrees
        ∧ (s'.freed ++ s'.freedReusable).Perm (ids ++ (s.freed ++ s.freedReusable)) := by
  induction ids with
  | nil =>
    intro s s' u hrun
    obtain ⟨-, rfl⟩ := pure_eq_ok.mp hrun
    exact ⟨rfl, List.Perm.refl _⟩
  | cons id ids ih =>
    intro s s' u hrun
    obtain ⟨_, t, hfree, hrun⟩ := bind_eq_ok.mp hrun
    obtain ⟨-, hscheduled, hperm⟩ := freePage_lists hfree
    obtain ⟨hscheduled', hperm'⟩ := ih hrun
    refine ⟨hscheduled'.trans hscheduled, hperm'.trans ?_⟩
    exact (hperm.append_left ids).trans perm_middle

/-- The session with a leaf replaced in its cache. -/
def Session.cacheLeaf (s : Session) (id : PageId) (fresh : Bool) (leaf : Leaf) : Session :=
  if fresh then { s with freshLeaves := s.freshLeaves.insert id leaf }
  else { s with dirtyLeaves := s.dirtyLeaves.insert id leaf }

section Cached

variable {source others held : List PageId} {s s' : Session} {i : Image} {H : Nat}
  {c : Ctx PageId Bytes Stored 0 H} {id : PageId} {records : List (Bytes × Stored)} {fresh : Bool}
  {leaf leaf' : Leaf}

theorem setCachedLeaf_run : setCachedLeaf id fresh leaf s = .ok () (s.cacheLeaf id fresh leaf) := rfl

theorem Session.CachedAt.replace (h : s.CachedAt id fresh leaf) :
    (s.cacheLeaf id fresh leaf').CachedAt id fresh leaf' := by
  cases fresh with
  | true => exact AList.lookup_insert _
  | false => exact ⟨h.1, AList.lookup_insert _⟩

theorem Session.CachedAt.run (h : s.CachedAt id fresh leaf) : cachedLeaf id fresh s = .ok leaf s := by
  unfold cachedLeaf
  rw [get_bind]
  cases fresh with
  | true =>
    have h : s.freshLeaves.lookup id = some leaf := h
    rw [if_pos rfl, h]
    rfl
  | false =>
    rw [if_neg Bool.false_ne_true, h.2]
    rfl

theorem Session.cacheLeaf_look_ne {p : PageId} (hp : p ≠ id) :
    (s.cacheLeaf id fresh leaf).look p = s.look p := by
  unfold Session.look Session.cacheLeaf
  cases fresh with
  | true =>
    rw [if_pos rfl]
    dsimp only
    rw [AList.lookup_insert_ne hp]
  | false =>
    rw [if_neg Bool.false_ne_true]
    dsimp only
    rw [AList.lookup_insert_ne hp]

theorem Session.cacheLeaf_touches {ws : List PageId} (ht : (s.cacheLeaf id fresh leaf).Touches ws s')
    (leaf' : Leaf) :
    (s.cacheLeaf id fresh leaf').Touches ws (s'.cacheLeaf id fresh leaf') := by
  obtain ⟨n, f, r, k, d, pager, rfl, hpage⟩ := ht
  refine ⟨n, f, r, k, d, pager, ?_, ?_⟩
  · unfold Session.cacheLeaf
    cases fresh with
    | true =>
      show { s with
        nextPageId := n, freed := f, freedReusable := r, cache := k, consumed := d, pager := pager,
        freshLeaves := (s.freshLeaves.insert id leaf).insert id leaf' } = _
      rw [AList.insert_insert]
      rfl
    | false =>
      show { s with
        nextPageId := n, freed := f, freedReusable := r, cache := k, consumed := d, pager := pager,
        dirtyLeaves := (s.dirtyLeaves.insert id leaf).insert id leaf' } = _
      rw [AList.insert_insert]
      rfl
  · cases fresh <;> exact hpage

theorem Session.cacheLeaf_ledger {owned : List PageId} (hl : Ledger source s owned) :
    Ledger source (s.cacheLeaf id fresh leaf) owned := by
  cases fresh <;> exact ⟨hl.four, hl.law, hl.drawn⟩

theorem Session.cacheLeaf_pager : (s.cacheLeaf id fresh leaf).pager = s.pager := by
  cases fresh <;> rfl

/-- Other caches that show the same nodes. -/
theorem Fragile.relook (h : Fragile source others held s i) (hlook : ∀ p, s'.look p = s.look p)
    (hpager : ∀ p, s'.pager.page p = s.pager.page p) (hroot : s'.rootPageId = s.rootPageId)
    (hdirty : ∀ p ∈ s'.dirtyLeaves, p ∈ i.ids ∧ ∃ leaf, s.pager.page p = some (.leaf leaf))
    (hledger : Ledger source s' (held ++ (i.pages ++ others))) :
    Fragile source others held s' i where
  outline := by
    refine ⟨fun e he => ?_, h.outline.ordered, h.outline.nodup, h.outline.zero, fun p hp => ?_,
      h.outline.root.trans hroot.symm⟩
    · have hold := h.outline.rep e he
      obtain ⟨p, cell⟩ := e
      cases cell <;> exact (hlook p).trans hold
    · obtain ⟨leaf, hleaf⟩ := (hdirty p hp).2
      exact ⟨leaf, (hpager p).trans hleaf⟩
  dirty := fun p hp => (hdirty p hp).1
  closed := by
    obtain ⟨reach, hreach, hvalues, hclosed⟩ := h.closed
    exact ⟨reach, hreach, hvalues, hclosed.congr fun p _ => hpager p⟩
  ledger := hledger

/-- A cached leaf replaced by one with the same records. -/
theorem Fragile.cacheLeaf (h : Fragile source others held s i) (hcached : s.CachedAt id fresh leaf)
    (hsame : leaf'.records = leaf.records) :
    Fragile source others held (s.cacheLeaf id fresh leaf') i := by
  refine h.relook (fun p => ?_) (fun p => by rw [Session.cacheLeaf_pager]) ?_ (fun p hp => ?_)
    (Session.cacheLeaf_ledger h.ledger)
  · by_cases hp : p = id
    · subst hp
      rw [hcached.replace.look, hcached.look, hsame]
    · exact Session.cacheLeaf_look_ne hp
  · cases fresh <;> rfl
  · have hold : p ∈ s.dirtyLeaves := by
      cases fresh with
      | true => exact hp
      | false =>
        have hp : p ∈ s.dirtyLeaves.insert id leaf' := hp
        rcases (AList.mem_insert _).mp hp with rfl | hp
        · exact AList.lookup_isSome.mp (by rw [hcached.2]; rfl)
        · exact hp
    exact ⟨h.dirty p hold, h.outline.paged p hold⟩

/-- **The leaf of a path is cached, and nothing else changed.** -/
theorem Fragile.touchLeaf {ancestors : List PageId}
    (h : Fragile source others held s (.tree (c.plug (.leaf id records))))
    (hrun : touchLeaf id ancestors s = .ok (fresh, leaf) s') :
    Fragile source others held s' (.tree (c.plug (.leaf id records))) ∧ s'.CachedAt id fresh leaf
      ∧ leaf.records = leafRecords records ∧ (∀ p, s'.pager.page p = s.pager.page p)
      ∧ ∀ p ∈ s'.scheduledFrees, p ∈ s.scheduledFrees ∨ p ∈ s'.dirtyLeaves := by
  have hcell : (id, Cell.leaf records) ∈ (c.plug (.leaf id records)).cells :=
    (c.plug_cells _).mem_iff.mpr (mem_append_left _ (mem_singleton_self _))
  have hshown : s.look id = some (.inl (leafRecords records)) := h.outline.rep _ hcell
  obtain ⟨hcached, hcase⟩ := touchLeaf_eq_ok hrun
  have hkept : Fragile source others held s' (.tree (c.plug (.leaf id records)))
      ∧ (∀ p, s'.pager.page p = s.pager.page p)
      ∧ ∀ p ∈ s'.scheduledFrees, p ∈ s.scheduledFrees ∨ p ∈ s'.dirtyLeaves := by
    obtain rfl | ⟨v, hq, hf, hd, hpage, rfl⟩ := hcase
    · exact ⟨h, fun _ => rfl, fun _ => Or.inl⟩
    · obtain ⟨page, hpage', hrecords⟩ := Session.page_of_look_leaf h.outline.paged hf hshown
      rw [hpage] at hpage'
      cases hpage'
      rw [hd, Option.getD_none] at hrecords
      have hv := h.quiet hq
      have hnow : v.look id = some (.inl (leafRecords records)) := hv.outline.rep _ hcell
      refine ⟨hv.relook (Session.withDirty_look _ ?_ (by rw [hnow, hrecords])) (fun _ => rfl) rfl
        (fun p hp => ?_) ⟨hv.ledger.four, hv.ledger.law, hv.ledger.drawn⟩, hq.page, fun p hp => ?_⟩
      · obtain ⟨faults, rfl⟩ := hq
        exact hf
      · have hp : p ∈ v.dirtyLeaves.insert id leaf := hp
        rcases (AList.mem_insert _).mp hp with rfl | hp
        · exact ⟨leaf_mem_ids c _ _, leaf, (hq.page p).trans hpage⟩
        · exact ⟨hv.dirty p hp, hv.outline.paged p hp⟩
      · rcases mem_concat.mp hp with hp | rfl
        · obtain ⟨faults, rfl⟩ := hq
          exact Or.inl hp
        · exact Or.inr ((AList.mem_insert _).mpr (Or.inl rfl))
  refine ⟨hkept.1, hcached, ?_, hkept.2⟩
  have hlook := hkept.1.outline.rep _ hcell
  have hlook : s'.look id = some (.inl (leafRecords records)) := hlook
  rw [hcached.look] at hlook
  injection hlook with hlook
  injection hlook

/-- **A failed release and its undo leave the tree as it was.**  The leaf was changed
    in its cache, a page set aside, the release failed, the page was freed, and the
    leaf got its records back. -/
theorem undo_fragile (h : Fragile source others held s i) (hcached : s.CachedAt id fresh leaf)
    {changed restored : Leaf} {oldRoot cow : PageId} {u w x : Session} {e : TreeError}
    (halloc : allocatePage (s.cacheLeaf id fresh changed) = .ok cow u)
    (hrelease : release oldRoot cow u = .error e w) (hfree : freePage cow w = .ok () x)
    (hrestored : restored.records = leaf.records) :
    Fragile source others held (x.cacheLeaf id fresh restored) i
      ∧ x.CachedAt id fresh changed ∧ cow ∉ held ++ i.pages
      ∧ (∀ p, p ≠ cow → (x.cacheLeaf id fresh restored).pager.page p = s.pager.page p)
      ∧ x.pager = w.pager
      ∧ (x.cacheLeaf id fresh restored).scheduledFrees = s.scheduledFrees
      ∧ ∀ p ∈ s.dirtyLeaves, p ∈ (x.cacheLeaf id fresh restored).dirtyLeaves := by
  have hledger : Ledger source (s.cacheLeaf id fresh changed) (held ++ (i.pages ++ others)) :=
    Session.cacheLeaf_ledger h.ledger
  obtain ⟨hlu, htouch⟩ := hledger.allocate halloc
  have hrepaged : u.Repaged cow w :=
    (release_repaged oldRoot).of_error ⟨_, rfl, fun _ _ => rfl⟩ hrelease
  obtain ⟨hlx, htouch'⟩ := (hrepaged.ledger hlu).free hfree
  have htouches := (htouch.trans hrepaged.touches).trans htouch'
  have hcow : cow ∉ held ++ i.pages := by
    intro hmem
    rw [← append_assoc] at hlu
    exact (nodup_cons.mp hlu.nodup).1 (mem_append_left _ hmem)
  have hback := Session.cacheLeaf_touches htouches restored
  refine ⟨(h.cacheLeaf hcached hrestored).touch hback (Session.cacheLeaf_ledger hlx) ?_, ?_, hcow,
    fun p hp => ?_, (freePage_lists hfree).1, ?_, fun p hp => ?_⟩
  · intro p hp hmem
    have hmem : p ∈ [cow] := by simpa using hmem
    rw [mem_singleton.mp hmem] at hp
    exact hcow (mem_append_right _ hp)
  · have hin := @Session.CachedAt.replace s id fresh leaf changed hcached
    obtain ⟨n, f, r, k, d, pager, rfl, -⟩ := htouches
    cases fresh <;> exact hin
  · have hsame := hback.page (p := p) (by simpa using hp)
    rw [hsame, Session.cacheLeaf_pager]
  · obtain ⟨n, f, r, k, d, pager, hx, -⟩ := hback
    rw [hx]
    cases fresh <;> rfl
  · obtain ⟨n, f, r, k, d, pager, hx, -⟩ := hback
    rw [hx]
    cases fresh with
    | true => exact hp
    | false => exact (AList.mem_insert _).mpr (Or.inr hp)

end Cached

/-! ## §4. `put` and `delete` -/

/-- `put` up to the release of the value it replaces: the new value, the old one, and
    the page set aside for a copy of the old root. -/
def putUntilRelease (key value : Bytes) : TreeM (LeafValue × LeafValue × PageId) := do
  invalidateAppendState
  validateInsertRecordFits key value
  let leafValue ← leafValueFor value
  if (← get).rootPageId = 0 then throw .panic
  else do
    let path ← pathToLeafForKey key
    match path.getLast? with
    | none => throw .panic
    | some id => do
      let (fresh, leaf) ← touchLeaf id path.dropLast
      let (leaf', old) := leaf.upsert key leafValue
      setCachedLeaf id fresh leaf'
      match old with
      | none => throw .panic
      | some oldValue => do
        let newCowPage ← allocatePage
        pure (leafValue, oldValue, newCowPage)

/-- `delete` up to the release of the value it removes. -/
def deleteUntilRelease (key : Bytes) : TreeM (LeafValue × PageId) := do
  invalidateAppendState
  if (← get).rootPageId = 0 then throw .panic
  else do
    let path ← pathToLeafForKey key
    match path.getLast? with
    | none => throw .panic
    | some id => do
      let (fresh, leaf) ← touchLeaf id path.dropLast
      let (leaf', old) := leaf.remove key
      setCachedLeaf id fresh leaf'
      match old with
      | none => throw .panic
      | some oldValue => do
        let newCowPage ← allocatePage
        pure (oldValue, newCowPage)

/-- The call changed nothing a lookup sees and freed no page of the tree.  What it
    scheduled are leaves that now live in the cache. -/
structure Unharmed (s s' : Session) (i : Image) : Prop where
  reads : ∀ j, outcome (treeGet j s'.calm) = outcome (treeGet j s.calm)
  pages : ∀ p ∈ i.pages, p ∉ s'.freed ∧ p ∉ s'.freedReusable
  scheduled : ∀ p ∈ s'.scheduledFrees, p ∈ s.scheduledFrees ∨ p ∈ s'.dirtyLeaves

section Failed

variable {source others held : List PageId} {s s' : Session} {i : Image}

theorem Fragile.unharmed (h : Fragile source others [] s i) (h' : Fragile source others held s' i)
    (hpage : ∀ p ∈ i.pages, s'.pager.page p = s.pager.page p)
    (hscheduled : ∀ p ∈ s'.scheduledFrees, p ∈ s.scheduledFrees ∨ p ∈ s'.dirtyLeaves) :
    Unharmed s s' i where
  reads := by
    intro j
    have hcalm := h.quiet s.quiet_calm
    obtain ⟨reach, hreach, hvalues, hclosed⟩ := hcalm.closed
    exact (treeGet_agree hcalm.outline (h'.quiet s'.quiet_calm).outline s.clear_calm s'.clear_calm
      hvalues hclosed (fun p hp => hpage p (hreach hp)) j).symm
  pages := by
    intro p hp
    have hdisj := disjoint_of_nodup_append h'.ledger.nodup_all
      (mem_append_right held (mem_append_left others hp))
    exact ⟨fun hmem => hdisj (mem_append_left _ hmem),
      fun hmem => hdisj (mem_append_right _ (mem_append_left _ hmem))⟩
  scheduled := hscheduled

variable {n : Nat} {oldRoot cow : PageId} {u w : Session} {e : TreeError}

/-- What runs after a release that failed. -/
theorem releaseOld_error {undo : TreeM Unit} {x y : Session} (halloc : allocatePage s = .ok cow u)
    (hrelease : release oldRoot cow u = .error e w) (hcancel : e ≠ .cancelled)
    (hfree : freePage cow w = .ok () x) (hundo : undo x = .ok () y) :
    releaseOld undo (some (.overflow n oldRoot)) s = .error e y := by
  unfold releaseOld
  dsimp only
  rw [bind_of_ok halloc]
  refine bind_of_error ?_
  show EStateM.tryCatch (release oldRoot cow) _ u = _
  unfold EStateM.tryCatch
  rw [hrelease]
  show (if e = .cancelled then throw e else _ : TreeM ReleaseResult) w = _
  rw [if_neg hcancel, bind_of_ok hfree, bind_of_ok hundo]
  rfl

/-- Where both calls stand when they release: the path to the leaf, and the leaf in
    its cache, cut at the key. -/
theorem Fragile.reach {k : Bytes} {path : List PageId} (h : Fragile source others held s i)
    (hroot : s.rootPageId ≠ 0) (hpath : pathToLeafForKey k s = .ok path u) :
    ∃ (H : Nat) (c : Ctx PageId Bytes Stored 0 H) (id : PageId)
      (left right : List (Bytes × Stored)) (old : Option Stored),
      i = .tree (c.plug (.leaf id (around left k old right))) ∧ Cut c k left right
        ∧ path = c.pathIds.reverse ++ [id] ∧ s.Quiet u := by
  cases i with
  | empty => exact absurd h.outline.root.symm hroot
  | @tree H t =>
    obtain ⟨hq, c, id, left, right, old, rfl, hcut, hpath⟩ :=
      (h.outline.path_returns k).sound _ _ hpath
    exact ⟨H, c, id, left, right, old, rfl, hcut, hpath, hq⟩

theorem Fragile.forget (h : Fragile source others held s i) :
    ∃ s', invalidateAppendState s = .ok () s' ∧ Fragile source others held s' i
      ∧ s'.pager = s.pager ∧ s'.scheduledFrees = s.scheduledFrees := by
  refine ⟨_, rfl, ?_, rfl, rfl⟩
  exact h.relook (fun _ => rfl) (fun _ => rfl) rfl
    (fun p hp => ⟨h.dirty p hp, h.outline.paged p hp⟩) ⟨h.ledger.four, h.ledger.law, h.ledger.drawn⟩

theorem freePage_run {id : PageId} (h : 4 ≤ id) : ∃ x, freePage id s = .ok () x := by
  unfold freePage
  have hassert : assertUsable id s = .ok () s := by
    unfold assertUsable
    have hid : ¬ id < FIRST_DATA_PAGE := Nat.not_lt.mpr h
    rw [if_neg hid]
    rfl
  rw [bind_of_ok hassert]
  exact ⟨_, rfl⟩

theorem Fragile.free_cow {id : PageId} {fresh : Bool} {changed : Leaf}
    (h : Fragile source others held s i)
    (halloc : allocatePage (s.cacheLeaf id fresh changed) = .ok cow u) (w : Session) :
    ∃ x, freePage cow w = .ok () x := by
  have hledger : Ledger source (s.cacheLeaf id fresh changed) (held ++ (i.pages ++ others)) :=
    Session.cacheLeaf_ledger h.ledger
  exact freePage_run ((hledger.allocate halloc).1.bounds mem_cons_self).1

/-- **A delete whose release fails.** -/
theorem delete_unharmed (h : Fragile source others [] s i) {key : Bytes}
    (hrun : deleteUntilRelease key s = .ok (.overflow n oldRoot, cow) u)
    (hrelease : release oldRoot cow u = .error e w) (hcancel : e ≠ .cancelled) :
    ∃ s', treeDelete key s = .error e s' ∧ Unharmed s s' i := by
  obtain ⟨a, hforget, h₀, hpager₀, hscheduled₀⟩ := h.forget
  unfold deleteUntilRelease at hrun
  rw [bind_of_ok hforget, get_bind] at hrun
  have hroot : a.rootPageId ≠ 0 := by
    intro hroot
    rw [if_pos hroot] at hrun
    cases hrun
  rw [if_neg hroot] at hrun
  obtain ⟨path, b, hpath, hrun⟩ := bind_eq_ok.mp hrun
  obtain ⟨H, c, id, left, right, old, rfl, hcut, rfl, hq⟩ := h₀.reach hroot hpath
  rw [getLast?_concat] at hrun
  obtain ⟨⟨fresh, leaf⟩, d, htouch, hrun⟩ := bind_eq_ok.mp hrun
  obtain ⟨hd, hcached, hleaf, hpages, hscheduled⟩ := (h₀.quiet hq).touchLeaf htouch
  obtain ⟨hchanged, hold⟩ := Leaf.remove_around hcut.around hleaf
  dsimp only at hrun
  cases hremove : leaf.remove key with
  | mk changed oldValue =>
    rw [hremove] at hrun hchanged hold
    dsimp only at hrun hchanged hold
    rw [bind_of_ok setCachedLeaf_run, hold] at hrun
    cases old with
    | none => cases hrun
    | some v =>
      obtain ⟨cow', u', halloc, hrun⟩ := bind_eq_ok.mp hrun
      obtain ⟨hpair, rfl⟩ := pure_eq_ok.mp hrun
      obtain ⟨hvalue, rfl⟩ := Prod.mk.inj hpair
      obtain ⟨x, hfree⟩ := hd.free_cow halloc w
      have hrestored := (Leaf.upsert_around hcut.around hchanged v).1
      rw [← hleaf] at hrestored
      obtain ⟨hy, hin, hcow, hpage, -, hscheduled', hdirty⟩ :=
        undo_fragile hd hcached halloc hrelease hfree hrestored
      refine ⟨x.cacheLeaf id fresh (changed.upsert key v.leafValue).1, ?_,
        h.unharmed hy (fun p hp => ?_) fun p hp => ?_⟩
      · unfold treeDelete
        rw [bind_of_ok hforget, get_bind, if_neg hroot, bind_of_ok hpath]
        unfold deleteAtPath
        rw [getLast?_concat]
        dsimp only
        rw [bind_of_ok htouch]
        dsimp only
        rw [hremove]
        dsimp only
        rw [bind_of_ok setCachedLeaf_run, hold, Option.map_some, hvalue]
        refine bind_of_error (releaseOld_error halloc hrelease hcancel hfree ?_)
        rw [bind_of_ok hin.run, ← hvalue]
        rfl
      · have hne : p ≠ cow' := fun heq => hcow (heq ▸ mem_append_right _ hp)
        rw [hpage p hne, hpages, hq.page, hpager₀]
      · rw [hscheduled'] at hp
        rw [← hscheduled₀]
        refine (hscheduled p hp).imp (fun hmem => ?_) (hdirty p)
        obtain ⟨faults, rfl⟩ := hq
        exact hmem

/-- The new value's chain is walked and freed. -/
theorem discard_run {v : Stored} {y : Session} (hclear : y.Clear) (hheld : v.Held y.pager)
    (hy : Fragile source others v.pages y i) :
    ∃ s', discardUncommittedValue (some v.leafValue) y = .ok () s'
      ∧ Fragile source others [] s' i ∧ y.Touches [] s' ∧ s'.scheduledFrees = y.scheduledFrees
      ∧ (s'.freed ++ s'.freedReusable).Perm (v.pages ++ (y.freed ++ y.freedReusable)) := by
  obtain ⟨bytes, pages⟩ := v
  cases pages with
  | nil => exact ⟨y, rfl, hy, Session.Touches.refl y, rfl, List.Perm.refl _⟩
  | cons root pages =>
    have hnodup : (root :: pages).Nodup := hy.ledger.nodup.of_append_left
    have hzero : 0 ∉ pages := fun hmem =>
      hy.ledger.zero_notMem (mem_append_left _ (mem_cons_of_mem _ hmem))
    have hcollect := collectChain_returns (s := y) ⟨hheld, hnodup, hzero⟩
    obtain ⟨r, z, hrun, hz⟩ := hcollect.total hclear
    obtain ⟨rfl, hq⟩ := hcollect.sound r z hrun
    obtain rfl := hq.eq_of_clear hclear hz
    have hfour : ∀ p ∈ root :: pages, 4 ≤ p := fun p hp =>
      (hy.ledger.bounds (mem_append_left _ hp)).1
    obtain ⟨_, s', hfrees, -⟩ := freePages_ends (root :: pages) hfour hclear
    obtain ⟨hscheduled, hperm⟩ := freePages_lists _ hfrees
    obtain ⟨hledger, htouch⟩ := Ledger.freeAll _ hy.ledger hfrees
    refine ⟨s', ?_, hy.touch htouch hledger fun _ _ => not_mem_nil, htouch, hscheduled, hperm⟩
    have hcatch : (tryCatch (collectChain root) fun e =>
        if e = .cancelled then throw e else pure [] : TreeM (List PageId)) z
        = .ok (root :: pages) z := by
      show EStateM.tryCatch (collectChain root) _ z = _
      unfold EStateM.tryCatch
      rw [hrun]
    show (_ >>= _ : TreeM Unit) z = _
    rw [bind_of_ok hcatch, hfrees]

/-- The chain of a value that was written and discarded. -/
def PutBack (s' : Session) (pager : Pager) (value : Bytes) (new : LeafValue) : Prop :=
  ∀ n root, new = .overflow n root → ∃ pages, OverflowChain pager root 1 pages value
    ∧ ∀ p ∈ root :: pages, (s'.freed ++ s'.freedReusable).count p = 1

theorem Fragile.putBack {v : Stored} {freed : List PageId} {pager : Pager}
    (h : Fragile source others [] s i) (hheld : v.Held pager) (hnodup : v.pages.Nodup)
    (hzero : 0 ∉ v.pages) (hperm : (s.freed ++ s.freedReusable).Perm (v.pages ++ freed)) :
    PutBack s pager v.bytes v.leafValue := by
  intro n root hnew
  have hlists : (s.freed ++ s.freedReusable).Nodup := by
    have hall := h.ledger.nodup_all
    rw [← append_assoc s.freed] at hall
    exact hall.of_append_right.of_append_left
  obtain ⟨bytes, pages⟩ := v
  cases pages with
  | nil => cases hnew
  | cons root' pages =>
    cases hnew
    refine ⟨pages, ⟨hheld, hnodup, fun hmem => hzero (mem_cons_of_mem _ hmem)⟩, fun p hp => ?_⟩
    exact count_eq_one_of_mem hlists (hperm.mem_iff.mpr (mem_append_left _ hp))

/-- **A put whose release fails.** -/
theorem put_unharmed (h : Fragile source others [] s i) {key value : Bytes} {new : LeafValue}
    (hrun : putUntilRelease key value s = .ok (new, .overflow n oldRoot, cow) u)
    (hrelease : release oldRoot cow u = .error e w) (hcancel : e ≠ .cancelled) (hclear : w.Clear) :
    ∃ s', treePut key value s = .error e s' ∧ Unharmed s s' i ∧ PutBack s' w.pager value new := by
  obtain ⟨a, hforget, h₀, hpager₀, hscheduled₀⟩ := h.forget
  unfold putUntilRelease at hrun
  rw [bind_of_ok hforget] at hrun
  obtain ⟨_, a', hvalid, hrun⟩ := bind_eq_ok.mp hrun
  obtain rfl : a = a' := by
    rcases validateInsertRecordFits_cases key value a with hok | herror
    · rw [hok] at hvalid
      cases hvalid
      rfl
    · rw [herror] at hvalid
      cases hvalid
  -- the new value is written to pages outside the tree
  obtain ⟨lv, b, hwrite, hrun⟩ := bind_eq_ok.mp hrun
  obtain ⟨v, rfl, rfl, hheld, hledger, hwritten⟩ := leafValueFor_spec h₀.ledger hwrite
  have hledger : Ledger source b (v.pages ++ (i.pages ++ others)) := hledger
  have hapart : ∀ p ∈ i.pages, p ∉ v.pages := fun p hp hmem =>
    disjoint_of_nodup_append hledger.nodup hmem (mem_append_left _ hp)
  have hb : Fragile source others v.pages b i := h₀.touch hwritten hledger hapart
  rw [get_bind] at hrun
  have hroot : b.rootPageId ≠ 0 := by
    intro hroot
    rw [if_pos hroot] at hrun
    cases hrun
  rw [if_neg hroot] at hrun
  obtain ⟨path, c₀, hpath, hrun⟩ := bind_eq_ok.mp hrun
  obtain ⟨H, c, id, left, right, old, rfl, hcut, rfl, hq⟩ := hb.reach hroot hpath
  rw [getLast?_concat] at hrun
  obtain ⟨⟨fresh, leaf⟩, d, htouch, hrun⟩ := bind_eq_ok.mp hrun
  obtain ⟨hd, hcached, hleaf, hpages, hscheduled⟩ := (hb.quiet hq).touchLeaf htouch
  obtain ⟨hchanged, hold⟩ := Leaf.upsert_around hcut.around hleaf v
  dsimp only at hrun
  cases hupsert : leaf.upsert key v.leafValue with
  | mk changed oldValue =>
    rw [hupsert] at hrun hchanged hold
    dsimp only at hrun hchanged hold
    rw [bind_of_ok setCachedLeaf_run, hold] at hrun
    cases old with
    | none => cases hrun
    | some o =>
      obtain ⟨cow', u', halloc, hrun⟩ := bind_eq_ok.mp hrun
      obtain ⟨htriple, rfl⟩ := pure_eq_ok.mp hrun
      obtain ⟨rfl, hpair⟩ := Prod.mk.inj htriple
      obtain ⟨hvalue, rfl⟩ := Prod.mk.inj hpair
      obtain ⟨x, hfree⟩ := hd.free_cow halloc w
      obtain ⟨hrestored, hattempted⟩ := Leaf.upsert_around hcut.around hchanged o
      cases hundo : changed.upsert key o.leafValue with
      | mk restored attempted =>
        rw [hundo] at hrestored hattempted
        dsimp only at hrestored hattempted
        rw [← hleaf] at hrestored
        obtain ⟨hy, hin, hcow, hpage, hpager, hscheduled', hdirty⟩ :=
          undo_fragile hd hcached halloc hrelease hfree hrestored
        have hpager' : (x.cacheLeaf id fresh restored).pager = w.pager :=
          Session.cacheLeaf_pager.trans hpager
        have hclear' : (x.cacheLeaf id fresh restored).Clear := by
          unfold Session.Clear
          rw [hpager']
          exact hclear
        have hheld' : v.Held (x.cacheLeaf id fresh restored).pager := by
          refine hheld.congr fun p hp => ?_
          have hne : p ≠ cow' := fun heq => hcow (heq ▸ mem_append_left _ hp)
          rw [hpage p hne, hpages, hq.page]
        obtain ⟨s', hdiscard, hs', htouches, hscheduled'', hperm⟩ :=
          discard_run hclear' hheld' hy
        refine ⟨s', ?_, h.unharmed hs' (fun p hp => ?_) fun p hp => ?_, ?_⟩
        · unfold treePut
          rw [bind_of_ok hforget, bind_of_ok hvalid, bind_of_ok hwrite, get_bind,
            if_neg hroot, bind_of_ok hpath]
          refine bind_of_error ?_
          unfold putAtPath
          rw [getLast?_concat]
          dsimp only
          rw [bind_of_ok htouch]
          dsimp only
          rw [hupsert]
          dsimp only
          rw [bind_of_ok setCachedLeaf_run, hold, Option.map_some, hvalue]
          refine bind_of_error (releaseOld_error halloc hrelease hcancel hfree ?_)
          rw [bind_of_ok hin.run, ← hvalue]
          dsimp only
          rw [hundo]
          dsimp only
          rw [bind_of_ok setCachedLeaf_run, hattempted]
          exact hdiscard
        · have hne : p ≠ cow' := fun heq => hcow (heq ▸ mem_append_right _ hp)
          rw [htouches.page not_mem_nil, hpage p hne, hpages, hq.page,
            hwritten.page (hapart p hp), hpager₀]
        · rw [hscheduled'', hscheduled'] at hp
          have hsame : s'.dirtyLeaves = (x.cacheLeaf id fresh restored).dirtyLeaves := by
            obtain ⟨_, _, _, _, _, _, rfl, -⟩ := htouches
            rfl
          rw [hsame]
          refine (hscheduled p hp).imp (fun hmem => ?_) (hdirty p)
          rw [← hscheduled₀]
          obtain ⟨faults, rfl⟩ := hq
          obtain ⟨_, _, _, _, _, _, rfl, -⟩ := hwritten
          exact hmem
        · rw [← hpager']
          refine hs'.putBack hheld' hledger.nodup.of_append_left (fun hmem => ?_) hperm
          exact hledger.zero_notMem (mem_append_left _ hmem)

/-- **A failed release leaves the record readable.**  Both calls return the error of the
    release.  Afterwards every key reads as before, the broken value's own key with the
    same error, no page of the tree is free, and the chain of the new value is on the
    free lists, each page once. -/
theorem failed_release_keeps_records (h : Fragile source others [] s i) (key : Bytes) :
    (∀ (value : Bytes) (new : LeafValue) (n : Nat) (oldRoot cow : PageId) (u w : Session)
      (e : TreeError), putUntilRelease key value s = .ok (new, .overflow n oldRoot, cow) u →
      release oldRoot cow u = .error e w → e ≠ .cancelled → w.Clear →
      ∃ s', treePut key value s = .error e s' ∧ Unharmed s s' i ∧ PutBack s' w.pager value new)
    ∧ ∀ (n : Nat) (oldRoot cow : PageId) (u w : Session) (e : TreeError),
      deleteUntilRelease key s = .ok (.overflow n oldRoot, cow) u →
      release oldRoot cow u = .error e w → e ≠ .cancelled →
      ∃ s', treeDelete key s = .error e s' ∧ Unharmed s s' i := by
  constructor
  · intro value new n oldRoot cow u w e hrun hrelease hcancel hclear
    exact put_unharmed h hrun hrelease hcancel hclear
  · intro n oldRoot cow u w e hrun hrelease hcancel
    exact delete_unharmed h hrun hrelease hcancel

end Failed

/-- One leaf with one record, whose chain links back to its own root. -/
def loopedSession : Session :=
  { BTree.open 4096 4 6 none with
    pager :=
      { dirty := []
        disk := [(4, .leaf { Leaf.new with records := [([1], .overflow 3 5)] }),
          (5, .overflowRoot 1 5 [7])]
        written := []
        faults := [] }
    cache := []
    consumed := [] }

def loopedImage : Image := .tree (.leaf 4 [([1], ⟨[7, 7, 7], [5]⟩)] : PageTree 0)

theorem loopedSession_fragile : Fragile [] [] [] loopedSession loopedImage where
  outline := by
    refine ⟨fun e he => ?_, by decide, by decide, by decide, fun p hp => absurd hp (AList.notMem_empty p),
      rfl⟩
    rw [mem_singleton.mp (show e ∈ [(4, Cell.leaf [([1], ⟨[7, 7, 7], [5]⟩)])] from he)]
    rfl
  dirty := fun p hp => absurd hp (AList.notMem_empty p)
  closed := by
    refine ⟨[5], by decide, by decide, fun p hp page next hpage hlink => ?_⟩
    rw [mem_singleton.mp hp] at hpage
    cases hpage
    cases hlink
    exact Or.inr (mem_singleton_self 5)
  ledger := ⟨by decide, by decide, List.Perm.refl _⟩

/-- A put over the looped chain, whose new value takes a page of its own. -/
theorem failed_release_keeps_records_looped :
    ∃ s' root pages, treePut [1] (List.replicate 2000 0) loopedSession
        = .error .overflowChainCycle s'
      ∧ Unharmed loopedSession s' loopedImage
      ∧ ∀ p ∈ root :: pages, (s'.freed ++ s'.freedReusable).count p = 1 := by
  obtain ⟨r, u, hrun, htest⟩ := exists_of_okThen
    (r := putUntilRelease [1] (List.replicate 2000 0) loopedSession)
    (p := fun r u => decide (r = (.overflow 2000 6, .overflow 3 5, 7) ∧ u.pager.faults = []
      ∧ u.pager.page 5 = some (.overflowRoot 1 5 [7]))) (by decide +kernel)
  obtain ⟨rfl, hclear, hpage⟩ := of_decide_eq_true htest
  have hread : readRootPage 5 u = .ok (1, 5, [7]) u := by
    have hpage' : readPage 5 u = .ok (.overflowRoot 1 5 [7]) u := by
      rw [readPage_clear hclear, hpage]
    unfold readRootPage
    rw [bind_of_ok hpage']
    rfl
  have hrelease : release 5 7 u = .error .overflowChainCycle u := by
    unfold release
    rw [bind_of_ok hread]
    rfl
  obtain ⟨s', hput, hsame, hback⟩ := (failed_release_keeps_records loopedSession_fragile [1]).1
    (List.replicate 2000 0) _ 3 5 7 u u _ hrun hrelease (by decide) hclear
  obtain ⟨pages, -, hcount⟩ := hback 2000 6 rfl
  exact ⟨s', 6, pages, hput, hsame, hcount⟩

end Pagedb
