/-
  Pagedb.BTree.Invariant — what every tree operation keeps.

  `Live` is the bookkeeping that does not depend on the tree's shape: the leaf
  caches, the cached parent paths, the read-out, its values, the ledger.
  `Holds` adds the tree the session shows.  While a split is on its way up, the
  tree has a hole: `Hole` holds the subtrees to put into it and the context
  around it, and `Hole.step` moves the hole up one level.
-/
import Pagedb.BTree.Chain

namespace Pagedb

open Lib List

/-! ## §1. Bookkeeping -/

/-- The overflow pages of a read-out. -/
def valuePages (items : List (Item Bytes Stored)) : List PageId :=
  (recordsOf items).flatMap fun r => r.2.pages

@[simp] theorem valuePages_append (a b : List (Item Bytes Stored)) :
    valuePages (a ++ b) = valuePages a ++ valuePages b := by
  unfold valuePages
  rw [recordsOf_append, flatMap_append]

/-- The leaf caches and what they schedule.  `retired` are the pages of leaves
    an earlier flush moved elsewhere. -/
structure Caches (s : Session) (ids : List PageId) (paths : List (PageId × List PageId))
    (retired : List PageId) : Prop where
  fresh_mem : ∀ p ∈ s.freshLeaves, p ∈ ids
  dirty_mem : ∀ p ∈ s.dirtyLeaves, p ∈ ids
  apart : ∀ p ∈ s.freshLeaves, p ∉ s.dirtyLeaves
  paged : s.DirtyPaged
  path_keys : ∀ p, p ∈ s.dirtyParentPaths ↔ p ∈ s.dirtyLeaves
  path_mem : ∀ p path, s.dirtyParentPaths.lookup p = some path → (p, path) ∈ paths
  scheduled : s.scheduledFrees.Perm (s.dirtyLeaves.keys ++ retired)

/-- What does not change from one operation to the next: what the cache of free
    pages held, and the pages of everyone else. -/
structure Surroundings where
  source : List PageId
  others : List PageId

/-- The bookkeeping of a session: `held` are pages it owns outside the tree. -/
structure Live (g : Surroundings) (s : Session) (retired held ids : List PageId)
    (items : List (Item Bytes Stored)) (paths : List (PageId × List PageId)) : Prop where
  caches : Caches s ids paths retired
  ordered : InOrder items
  values : ∀ r ∈ recordsOf items, r.2.Held s.pager
  ledger : Ledger g.source s (held ++ (ids ++ (valuePages items ++ (retired ++ g.others))))

namespace Live

variable {g : Surroundings} {s s' : Session} {retired held held' ids : List PageId}
  {items : List (Item Bytes Stored)} {paths : List (PageId × List PageId)}

variable (h : Live g s retired held ids items paths)

include h

theorem held_notMem_ids {p : PageId} (hp : p ∈ held) :
    p ∉ ids := fun hmem =>
  disjoint_of_nodup_append h.ledger.nodup hp (mem_append_left _ hmem)

theorem ids_nodup : ids.Nodup :=
  h.ledger.nodup.of_append_right.of_append_left

theorem ids_zero : 0 ∉ ids := fun h0 =>
  h.ledger.zero_notMem (mem_append_right _ (mem_append_left _ h0))

theorem record_pages {r : Bytes × Stored}
    (hr : r ∈ recordsOf items) : r.2.Held s.pager ∧ r.2.pages.Nodup ∧ 0 ∉ r.2.pages := by
  have hnodup : (valuePages items).Nodup :=
    h.ledger.nodup.of_append_right.of_append_right.of_append_left
  refine ⟨h.values r hr, (nodup_flatMap.mp hnodup).1 r hr, fun h0 => ?_⟩
  refine h.ledger.zero_notMem (mem_append_right _ (mem_append_right _ ?_))
  exact mem_append_left _ (mem_flatMap.mpr ⟨r, hr, h0⟩)

/-- The books do not depend on the order of the ids, on separators, or on paths
    that no cached leaf needs. -/
theorem congr {ids' : List PageId}
    {items' : List (Item Bytes Stored)} {paths' : List (PageId × List PageId)}
    (hids : ids'.Perm ids) (hordered : InOrder items')
    (hrecords : recordsOf items' = recordsOf items) (hpaths : paths ⊆ paths') :
    Live g s retired held ids' items' paths' where
  caches := ⟨fun p hp => hids.mem_iff.mpr (h.caches.fresh_mem p hp),
    fun p hp => hids.mem_iff.mpr (h.caches.dirty_mem p hp), h.caches.apart, h.caches.paged,
    h.caches.path_keys, fun p path hp => hpaths (h.caches.path_mem p path hp),
    h.caches.scheduled⟩
  ordered := hordered
  values := by rw [hrecords]; exact h.values
  ledger := by
    unfold valuePages
    rw [hrecords]
    exact h.ledger.perm ((hids.append_right _).append_left _)

/-- Allocating, freeing, and writing pages held outside the tree changes nothing
    in it. -/
theorem touch {ws : List PageId} (ht : s.Touches ws s')
    (hl : Ledger g.source s' (held' ++ (ids ++ (valuePages items ++ (retired ++ g.others)))))
    (hws : ws ⊆ held') : Live g s' retired held' ids items paths where
  caches := by
    have hids : ∀ p ∈ ids, p ∉ ws := fun p hp hw =>
      disjoint_of_nodup_append hl.nodup (hws hw) (mem_append_left _ hp)
    obtain ⟨n, f, r, c, d, pager, rfl, hpage⟩ := ht
    refine ⟨h.caches.fresh_mem, h.caches.dirty_mem, h.caches.apart, ?_, h.caches.path_keys,
      h.caches.path_mem, h.caches.scheduled⟩
    intro p hp
    obtain ⟨leaf, hleaf⟩ := h.caches.paged p hp
    exact ⟨leaf, (hpage p (hids p (h.caches.dirty_mem p hp))).trans hleaf⟩
  ordered := h.ordered
  values := by
    intro r hr
    refine ht.held (h.values r hr) fun p hp hw => ?_
    have hmem : p ∈ valuePages items := mem_flatMap.mpr ⟨r, hr, hp⟩
    exact disjoint_of_nodup_append hl.nodup (hws hw) (mem_append_right _ (mem_append_left _ hmem))
  ledger := hl

/-- The books after the tree moved to other branch pages: the cached leaves
    stay, and the cached parent paths follow `remap`. -/
theorem remap {ws ids' : List PageId}
    {paths' : List (PageId × List PageId)} {remap : PageId → List PageId → List PageId}
    (ht : s.Touches ws s')
    (hl : Ledger g.source s' (held' ++ (ids' ++ (valuePages items ++ (retired ++ g.others)))))
    (hcached : ∀ p, p ∈ s.freshLeaves ∨ p ∈ s.dirtyLeaves → p ∈ ids' ∧ p ∉ ws)
    (hvalues : ∀ p ∈ valuePages items, p ∉ ws)
    (hpaths : ∀ l ∈ paths, (l.1, remap l.1 l.2) ∈ paths') :
    Live g { s' with dirtyParentPaths := s'.dirtyParentPaths.mapVals remap } retired held' ids'
      items paths' where
  caches := by
    have hc := h.caches
    obtain ⟨n, fr, r, c, d, pager, rfl, hpage⟩ := ht
    refine ⟨fun p hp => (hcached p (Or.inl hp)).1, fun p hp => (hcached p (Or.inr hp)).1, hc.apart,
      fun p hp => ?_, fun p => ?_, fun p path hp => ?_, hc.scheduled⟩
    · obtain ⟨leaf, hleaf⟩ := hc.paged p hp
      exact ⟨leaf, (hpage p (hcached p (Or.inr hp)).2).trans hleaf⟩
    · show p ∈ (s.dirtyParentPaths.mapVals remap) ↔ _
      rw [AList.mem_keys, Table.keys_mapVals, ← AList.mem_keys]
      exact hc.path_keys p
    · have hp : (s.dirtyParentPaths.mapVals remap).lookup p = some path := hp
      rw [Table.lookup_mapVals] at hp
      obtain ⟨path', hpath', rfl⟩ := Option.map_eq_some_iff.mp hp
      exact hpaths _ (hc.path_mem p path' hpath')
  ordered := h.ordered
  values := by
    intro r hr
    refine ht.held (h.values r hr) fun p hp => hvalues p ?_
    exact mem_flatMap.mpr ⟨r, hr, hp⟩
  ledger := ⟨hl.four, hl.law, hl.drawn⟩

omit h in
theorem look_new {ws : List PageId} (ht : s.Touches ws s') {p : PageId} {node : Internal}
    (hp : ¬ (p ∈ s.freshLeaves ∨ p ∈ s.dirtyLeaves))
    (hpage : s'.pager.page p = some (.internal node)) : s'.look p = some (.inr node) := by
  obtain ⟨n, f, r, c, d, pager, rfl, -⟩ := ht
  refine (Session.look_page ?_ ?_).trans (by rw [hpage]; rfl)
  · exact AList.lookup_eq_none.mpr fun hf => hp (Or.inl hf)
  · exact AList.lookup_eq_none.mpr fun hd => hp (Or.inr hd)

theorem quiet (hq : s.Quiet s') :
    Live g s' retired held ids items paths :=
  h.touch (Session.Touches.of_quiet hq) (h.ledger.of_quiet hq) (nil_subset _)

/-- Neither the root nor the append marks nor the count of drains is part of it. -/
theorem marked (root : PageId) (last : Option Bytes) (path : Option (List PageId)) (n : Nat) :
    Live g { s with rootPageId := root, appendLastKey := last, appendCachedPath := path, drains := n }
      retired held ids items paths := by
  have hc := h.caches
  have hl := h.ledger
  exact ⟨⟨hc.fresh_mem, hc.dirty_mem, hc.apart, hc.paged, hc.path_keys, hc.path_mem, hc.scheduled⟩,
    h.ordered, h.values, ⟨hl.four, hl.law, hl.drawn⟩⟩

end Live

/-! ## §2. The whole tree -/

/-- The session shows the tree `t`, and its books are right. -/
structure Holds (g : Surroundings) (s : Session) (retired held : List PageId) {h : Nat}
    (t : PageTree h) : Prop where
  live : Live g s retired held t.ids t.items t.leafPaths
  rep : Rep s.Shows t
  root : t.id = s.rootPageId

namespace Holds

variable {g : Surroundings} {s s' : Session} {retired held held' : List PageId} {h : Nat}
  {t : PageTree h}

theorem touch (hs : Holds g s retired held t) {ws : List PageId} (ht : s.Touches ws s')
    (hl : Ledger g.source s' (held' ++ (t.ids ++ (valuePages t.items ++ (retired ++ g.others)))))
    (hws : ws ⊆ held') : Holds g s' retired held' t where
  live := hs.live.touch ht hl hws
  rep := by
    refine hs.rep.congr fun p hp c hc => ht.shows (fun hw => ?_) hc
    exact disjoint_of_nodup_append hl.nodup (hws hw) (mem_append_left _ hp)
  root := hs.root.trans ht.root.symm

theorem quiet (hs : Holds g s retired held t) (hq : s.Quiet s') : Holds g s' retired held t :=
  hs.touch (Session.Touches.of_quiet hq) (hs.live.ledger.of_quiet hq) (nil_subset _)

end Holds

/-! ## §3. A tree with a hole -/

/-- A branch as its page decodes. -/
def nodeOf {h : Nat} : PageTree (h + 1) → Internal
  | .branch _ first rest => ⟨first.id, Node.links rest⟩

theorem shows_nodeOf {h : Nat} {s : Session} {p : PageId} (m : PageTree (h + 1)) :
    s.Shows p m.cell ↔ s.look p = some (.inr (nodeOf m)) := by
  obtain ⟨id, first, rest, rfl⟩ := m.exists_branch
  exact Iff.rfl

/-- The session shows the subtrees `ns` and the context `c` around a hole that
    still links to `old`; `mid` is the read-out that belongs into the hole. -/
structure Hole (g : Surroundings) (s : Session) (retired : List PageId) {h H : Nat}
    (c : Ctx PageId Bytes Stored h H) (old : PageId) (ns : List (PageTree h))
    (mid : List (Item Bytes Stored)) : Prop where
  live : Live g s retired [] (ns.flatMap Node.ids ++ c.ids) (c.before ++ mid ++ c.after)
    ((ns.flatMap Node.leafPaths).map (fun l => (l.1, c.pathIds.reverse ++ l.2)) ++ c.siblingPaths)
  subs : ∀ n ∈ ns, Rep s.Shows n
  ctx : ∀ e ∈ c.cells old, s.Shows e.1 e.2
  old_out : old ∉ c.ids

/-- The hole's way down to every leaf below a frame, before and after the
    frame's branch has moved to other pages. -/
structure Remaps {h H : Nat} (f : Frame PageId Bytes Stored h) (up : Ctx PageId Bytes Stored (h + 1) H)
    (ns : List (PageTree h)) (ms : List (PageTree (h + 1)))
    (remap : PageId → List PageId → List PageId) : Prop where
  below : ∀ n ∈ ns ++ f.siblings, ∀ l ∈ n.leafPaths,
    ∃ m ∈ ms, n ∈ m.kids ∧ remap l.1 (up.pathIds.reverse ++ f.id :: l.2)
      = up.pathIds.reverse ++ m.id :: l.2
  beside : ∀ l ∈ up.siblingPaths, remap l.1 l.2 = l.2

namespace Hole

variable {g : Surroundings} {s : Session} {retired : List PageId} {h H : Nat}
  {f : Frame PageId Bytes Stored h} {up : Ctx PageId Bytes Stored (h + 1) H} {old : PageId}
  {ns : List (PageTree h)} {mid : List (Item Bytes Stored)}

variable (g retired f up ns mid) in
/-- The pages in use besides the branch around the hole. -/
abbrev outside : List PageId :=
  (ns ++ f.siblings).flatMap Node.ids ++ up.ids
    ++ (valuePages ((Ctx.cons f up).before ++ mid ++ (Ctx.cons f up).after) ++ (retired ++ g.others))

theorem ids_perm : (ns.flatMap Node.ids ++ (Ctx.cons f up).ids).Perm
    (f.id :: ((ns ++ f.siblings).flatMap Node.ids ++ up.ids)) := by
  show (ns.flatMap Node.ids ++ f.id :: (f.siblings.flatMap Node.ids ++ up.ids)).Perm _
  rw [flatMap_append]
  grind

theorem flatMap_ids_perm (ms : List (PageTree (h + 1))) :
    (ms.flatMap Node.ids).Perm (ms.map Node.id ++ (ms.flatMap Node.kids).flatMap Node.ids) := by
  induction ms with
  | nil => exact List.Perm.refl _
  | cons m ms ih =>
    rw [flatMap_cons, map_cons, flatMap_cons, flatMap_append, Node.ids_eq_kids]
    grind

/-- The ways down that a hole under a frame accounts for. -/
theorem mem_paths {l : PageId × List PageId} (hl : l ∈ (ns.flatMap Node.leafPaths).map
        (fun l => (l.1, (Ctx.cons f up).pathIds.reverse ++ l.2)) ++ (Ctx.cons f up).siblingPaths) :
    (∃ n ∈ ns ++ f.siblings, ∃ k ∈ n.leafPaths,
      l = (k.1, up.pathIds.reverse ++ f.id :: k.2)) ∨ l ∈ up.siblingPaths := by
  rcases mem_append.mp hl with hl | hl
  · obtain ⟨k, hk, rfl⟩ := mem_map.mp hl
    obtain ⟨n, hn, hkn⟩ := mem_flatMap.mp hk
    refine Or.inl ⟨n, mem_append_left _ hn, k, hkn, ?_⟩
    show (k.1, (f.id :: up.pathIds).reverse ++ k.2) = _
    rw [reverse_cons, append_assoc]
    rfl
  · rcases mem_append.mp hl with hl | hl
    · obtain ⟨k, hk, rfl⟩ := mem_map.mp hl
      obtain ⟨n, hn, hkn⟩ := mem_flatMap.mp hk
      exact Or.inl ⟨n, mem_append_right _ hn, k, hkn, rfl⟩
    · exact Or.inr hl

variable (hs : Hole g s retired (.cons f up) old ns mid)

include hs

theorem look_frame :
    ∃ node, s.look f.id = some (.inr node) := by
  have hframe := hs.ctx (f.id, f.cell old) mem_cons_self
  cases f <;> exact ⟨_, hframe⟩

/-- The cached leaves lie below or beside the branch around the hole. -/
theorem cached_mem {p : PageId}
    (hp : p ∈ s.freshLeaves ∨ p ∈ s.dirtyLeaves) :
    p ∈ (ns ++ f.siblings).flatMap Node.ids ++ up.ids := by
  have hmem : p ∈ ns.flatMap Node.ids ++ (Ctx.cons f up).ids := by
    rcases hp with hp | hp
    · exact hs.live.caches.fresh_mem p hp
    · exact hs.live.caches.dirty_mem p hp
  rcases mem_cons.mp (ids_perm.mem_iff.mp hmem) with rfl | hmem
  · obtain ⟨node, hnode⟩ := hs.look_frame
    obtain ⟨-, hf, hd⟩ := Session.page_of_look_internal hnode
    rcases hp with hp | hp
    · exact absurd hp (AList.lookup_eq_none.mp hf)
    · exact absurd hp (AList.lookup_eq_none.mp hd)
  · exact hmem

theorem ledger_frame : Ledger g.source s (f.id :: outside g retired f up ns mid) :=
  hs.live.ledger.perm (ids_perm.symm.append_right _)

theorem shows_below {n : PageTree h}
    (hn : n ∈ ns ++ f.siblings) : Rep s.Shows n := by
  rcases mem_append.mp hn with hn | hn
  · exact hs.subs n hn
  · intro e he
    refine hs.ctx e (mem_cons_of_mem _ (mem_append_left _ ?_))
    exact mem_flatMap.mpr ⟨n, hn, he⟩

/-- **The hole moves up.**  The branch around it is replaced by the branches
    `ms`, whose children are the subtrees in the hole and their siblings; its
    own page is free again, and the cached parent paths follow. -/
theorem step {ms : List (PageTree (h + 1))}
    {t : Session} {remap : PageId → List PageId → List PageId}
    (htouch : s.Touches (ms.map Node.id) t)
    (hkids : (ms.flatMap Node.kids).Perm (ns ++ f.siblings))
    (hpages : ∀ m ∈ ms, t.pager.page m.id = some (.internal (nodeOf m)))
    (hledger : Ledger g.source t (ms.map Node.id ++ outside g retired f up ns mid))
    (hremap : Remaps f up ns ms remap) :
    Hole g { t with dirtyParentPaths := t.dirtyParentPaths.mapVals remap } retired up f.id ms
      (f.itemsBefore ++ mid ++ f.itemsAfter) := by
  have hitems : up.before ++ (f.itemsBefore ++ mid ++ f.itemsAfter) ++ up.after
      = (Ctx.cons f up).before ++ mid ++ (Ctx.cons f up).after := by
    show _ = up.before ++ f.itemsBefore ++ mid ++ (f.itemsAfter ++ up.after)
    simp only [append_assoc]
  have hids : (ms.flatMap Node.ids ++ up.ids).Perm
      (ms.map Node.id ++ ((ns ++ f.siblings).flatMap Node.ids ++ up.ids)) := by
    rw [← append_assoc]
    exact ((flatMap_ids_perm ms).trans ((hkids.flatMap_right _).append_left _)).append_right _
  -- the new branches' pages are pages of no one else
  have hnew : ∀ p ∈ (ns ++ f.siblings).flatMap Node.ids ++ up.ids, p ∉ ms.map Node.id :=
    fun p hp hm => disjoint_of_nodup_append hledger.nodup hm (mem_append_left _ hp)
  have hown : ∀ m ∈ ms, t.Shows m.id m.cell := by
    intro m hm
    refine (shows_nodeOf m).mpr (Live.look_new htouch (fun hc => ?_) (hpages m hm))
    exact hnew _ (hs.cached_mem hc) (mem_map_of_mem hm)
  have hshow : ∀ {p : PageId} {c : Cell PageId Bytes Stored}, t.Shows p c →
      { t with dirtyParentPaths := t.dirtyParentPaths.mapVals remap }.Shows p c := by
    intro p c hc
    cases c <;> exact hc
  constructor
  · rw [hitems]
    refine hs.live.remap htouch ?_ ?_ ?_ ?_
    · exact hledger.perm ((hids.append_right _).trans (List.Perm.of_eq (append_assoc _ _ _)))
    · intro p hp
      have hmem := hs.cached_mem hp
      exact ⟨hids.mem_iff.mpr (mem_append_right _ hmem), hnew p hmem⟩
    · exact fun p hp hm => disjoint_of_nodup_append hledger.nodup hm
        (mem_append_right _ (mem_append_left _ hp))
    · intro l hl
      rcases mem_paths hl with ⟨n, hn, k, hk, rfl⟩ | hbeside
      · obtain ⟨m, hm, hkid, hremapped⟩ := hremap.below n hn k hk
        refine mem_append_left _ (mem_map.mpr ⟨(k.1, m.id :: k.2), ?_, ?_⟩)
        · refine mem_flatMap.mpr ⟨m, hm, ?_⟩
          rw [Node.leafPaths_eq_kids]
          exact mem_map.mpr ⟨k, mem_flatMap.mpr ⟨n, hkid, hk⟩, rfl⟩
        · rw [hremapped]
      · refine mem_append_right _ ?_
        rw [hremap.beside _ hbeside]
        exact hbeside
  · intro m hm e he
    rw [Node.cells_eq_kids] at he
    rcases mem_cons.mp he with rfl | he
    · exact hshow (hown m hm)
    · obtain ⟨n, hn, hen⟩ := mem_flatMap.mp he
      have hn' : n ∈ ns ++ f.siblings := hkids.mem_iff.mp (mem_flatMap.mpr ⟨m, hm, hn⟩)
      have hmem : e.1 ∈ n.ids := by
        rw [← Node.cells_map_fst]
        exact mem_map_of_mem hen
      refine hshow (htouch.shows (hnew _ ?_) (hs.shows_below hn' e hen))
      exact mem_append_left _ (mem_flatMap.mpr ⟨n, hn', hmem⟩)
  · intro e he
    have hmem : e.1 ∈ up.ids := by
      rw [← up.cells_map_fst f.id]
      exact mem_map_of_mem he
    refine hshow (htouch.shows (hnew _ (mem_append_right _ hmem)) (hs.ctx e ?_))
    exact mem_cons_of_mem _ (mem_append_right _ he)
  · intro hmem
    exact (nodup_cons.mp (ids_perm.nodup_iff.mp hs.live.ids_nodup)).1 (mem_append_right _ hmem)

omit hs

/-- A hole at the root has no surroundings. -/
theorem live_top (hs : Hole g s retired (Ctx.top : Ctx PageId Bytes Stored h h) old ns mid) :
    Live g s retired [] (ns.flatMap Node.ids) mid (ns.flatMap Node.leafPaths) := by
  have hids : ns.flatMap Node.ids ++ (Ctx.top : Ctx PageId Bytes Stored h h).ids
      = ns.flatMap Node.ids := append_nil _
  have hitems : (Ctx.top : Ctx PageId Bytes Stored h h).before ++ mid
      ++ (Ctx.top : Ctx PageId Bytes Stored h h).after = mid := append_nil _
  have hpaths : (ns.flatMap Node.leafPaths).map
        (fun l => (l.1, (Ctx.top : Ctx PageId Bytes Stored h h).pathIds.reverse ++ l.2))
      ++ (Ctx.top : Ctx PageId Bytes Stored h h).siblingPaths = ns.flatMap Node.leafPaths := by
    show (ns.flatMap Node.leafPaths).map (fun l => l) ++ [] = _
    rw [append_nil, map_id']
  have hlive := hs.live
  rwa [hids, hitems, hpaths] at hlive

/-- A hole at the root is filled by the one tree in it. -/
theorem fill_root {n : PageTree h}
    (hs : Hole g s retired (Ctx.top : Ctx PageId Bytes Stored h h) old [n] n.items) :
    Holds g { s with rootPageId := n.id } retired [] n := by
  have hlive := hs.live_top
  rw [flatMap_singleton, flatMap_singleton] at hlive
  refine ⟨hlive.marked n.id s.appendLastKey s.appendCachedPath s.drains, ?_, rfl⟩
  refine (hs.subs n (mem_singleton_self n)).congr fun p _ c hc => ?_
  cases c <;> exact hc

/-- A hole at the root with two trees in it is filled by a new root over them. -/
theorem grow_root {l r : PageTree h} {sep : Bytes} {newRoot : PageId} {t : Session}
    (hs : Hole g s retired (Ctx.top : Ctx PageId Bytes Stored h h) old [l, r]
      (l.items ++ .sep sep :: r.items))
    (htouch : s.Touches [newRoot] t)
    (hpage : t.pager.page newRoot = some (.internal ⟨l.id, [(sep, r.id)]⟩))
    (hledger : Ledger g.source t (newRoot :: ([l, r].flatMap Node.ids
      ++ (valuePages (l.items ++ .sep sep :: r.items) ++ (retired ++ g.others))))) :
    Holds g { t with
      rootPageId := newRoot
      dirtyParentPaths := t.dirtyParentPaths.mapVals fun _ path => newRoot :: path } retired []
      (Node.branch newRoot l [(sep, r)]) := by
  have hlive := hs.live_top
  have hids : (Node.branch newRoot l [(sep, r)]).ids = newRoot :: [l, r].flatMap Node.ids :=
    Node.ids_eq_kids (Node.branch newRoot l [(sep, r)])
  have hitems : (Node.branch newRoot l [(sep, r)]).items = l.items ++ .sep sep :: r.items := by
    show l.items ++ (Item.sep sep :: r.items ++ []) = _
    rw [append_nil]
  have hnodup := nodup_cons.mp hledger.nodup
  have hnew : ∀ p ∈ [l, r].flatMap Node.ids, p ∉ [newRoot] := by
    intro p hp hw
    rw [mem_singleton.mp hw] at hp
    exact hnodup.1 (mem_append_left _ hp)
  have hcached : ∀ p, p ∈ s.freshLeaves ∨ p ∈ s.dirtyLeaves → p ∈ [l, r].flatMap Node.ids := by
    rintro p (hp | hp)
    · exact hlive.caches.fresh_mem p hp
    · exact hlive.caches.dirty_mem p hp
  have hremap : Live g { t with
      dirtyParentPaths := t.dirtyParentPaths.mapVals fun _ path => newRoot :: path } retired []
      (Node.branch newRoot l [(sep, r)]).ids (l.items ++ .sep sep :: r.items)
      (Node.branch newRoot l [(sep, r)]).leafPaths := by
    refine hlive.remap htouch ?_ ?_ ?_ ?_
    · rw [hids]
      exact hledger
    · intro p hp
      rw [hids]
      exact ⟨mem_cons_of_mem _ (hcached p hp), hnew p (hcached p hp)⟩
    · intro p hp hw
      rw [mem_singleton.mp hw] at hp
      exact hnodup.1 (mem_append_right _ (mem_append_left _ hp))
    · intro k hk
      rw [Node.leafPaths_eq_kids]
      exact mem_map.mpr ⟨k, hk, rfl⟩
  rw [← hitems] at hremap
  refine ⟨hremap.marked newRoot t.appendLastKey t.appendCachedPath t.drains, fun e he => ?_, rfl⟩
  rw [Node.cells_eq_kids] at he
  rcases mem_cons.mp he with rfl | he
  · refine (shows_nodeOf (Node.branch newRoot l [(sep, r)])).mpr ?_
    refine Live.look_new htouch (fun hc => ?_) hpage
    exact hnew _ (hcached _ hc) (mem_singleton_self _)
  · obtain ⟨n, hn, hen⟩ := mem_flatMap.mp he
    have hmem : e.1 ∈ n.ids := by
      rw [← Node.cells_map_fst]
      exact mem_map_of_mem hen
    have hshow := htouch.shows (hnew _ (mem_flatMap.mpr ⟨n, hn, hmem⟩)) (hs.subs n hn e hen)
    obtain ⟨p, c⟩ := e
    cases c <;> exact hshow

end Hole

end Pagedb
