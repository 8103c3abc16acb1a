/-
  Pagedb.BTree.ParentPaths — the recorded way to a cached leaf
  (`dirty_parent_paths`, `remap_dirty_parent_paths`, `flush_dirty_leaves`).

  For each dirty leaf the tree records the branch pages above it.  In a session
  that calls reach, that is the one way from the root down to the leaf; behind a
  flush there is still one way to each leaf, and no branch links to a page that
  was given up.  An append along a path remembered from before a flush records a
  way that leads elsewhere.
-/
import Pagedb.BTree.Accounting

namespace Pagedb

open Lib List

/-- The way from page `id` down to page `x`: each branch page with the index of the
    link that is taken there. -/
def Session.WayDown (s : Session) : PageId → List (PageId × Nat) → PageId → Prop
  | id, [], x => id = x
  | id, (p, j) :: way, x => id = p ∧ ∃ node c, s.look p = some (.inr node)
      ∧ node.children[j]? = some c ∧ s.WayDown c way x

section Ways

variable {s : Session} {h : Nat} {x : PageId}

variable {way : List (PageId × Nat)}

/-- The first step of a way takes one kid. -/
theorem wayDown_cons {n : PageTree (h + 1)} (hrep : Rep s.Shows n) {p : PageId} {j : Nat} :
    s.WayDown n.id ((p, j) :: way) x
      ↔ n.id = p ∧ ∃ k, n.kids[j]? = some k ∧ s.WayDown k.id way x := by
  have hown := (shows_nodeOf n).mp (hrep _ n.own_cell_mem)
  constructor
  · rintro ⟨rfl, node, c, hlook, hchild, hway⟩
    obtain rfl : nodeOf n = node := Sum.inr.inj (Option.some.inj (hown.symm.trans hlook))
    rw [children_nodeOf, getElem?_map] at hchild
    obtain ⟨k, hk, rfl⟩ := Option.map_eq_some_iff.mp hchild
    exact ⟨rfl, k, hk, hway⟩
  · rintro ⟨rfl, k, hk, hway⟩
    refine ⟨rfl, nodeOf n, k.id, hown, ?_, hway⟩
    rw [children_nodeOf, getElem?_map, hk]
    rfl

theorem not_wayDown_leaf {n : PageTree 0} (hrep : Rep s.Shows n) {e : PageId × Nat} :
    ¬ s.WayDown n.id (e :: way) x := by
  obtain ⟨id, records, rfl⟩ := n.exists_leaf
  rintro ⟨hid, node, c, hlook, -⟩
  have hown : s.look id = some (.inl (leafRecords records)) := hrep _ (mem_singleton_self _)
  rw [← hid] at hlook
  cases hown.symm.trans hlook

theorem wayDown_mem : ∀ {h : Nat} {n : PageTree h},
    Rep s.Shows n → s.WayDown n.id way x → x ∈ n.ids := by
  induction way with
  | nil =>
    rintro h n - ⟨⟩
    exact n.id_mem_ids
  | cons e way ih =>
    intro h n hrep hway
    cases h with
    | zero => exact absurd hway (not_wayDown_leaf hrep)
    | succ h =>
      obtain ⟨-, k, hk, hway⟩ := (wayDown_cons hrep).mp hway
      have hkid := mem_of_getElem? hk
      rw [Node.ids_eq_kids]
      exact mem_cons_of_mem _ (mem_flatMap.mpr ⟨k, hkid, ih (hrep.kid hkid) hway⟩)

/-- **At most one way leads to a page** of a tree with distinct pages. -/
theorem wayDown_unique : ∀ {h : Nat} {n : PageTree h}
    {way' : List (PageId × Nat)}, Rep s.Shows n → n.ids.Nodup → s.WayDown n.id way x →
    s.WayDown n.id way' x → way = way' := by
  induction way with
  | nil =>
    rintro h n way' hrep hnodup ⟨⟩ hway'
    cases way' with
    | nil => rfl
    | cons e' way' =>
      cases h with
      | zero => exact absurd hway' (not_wayDown_leaf hrep)
      | succ h =>
        obtain ⟨-, k, hk, hway'⟩ := (wayDown_cons hrep).mp hway'
        have hkid := mem_of_getElem? hk
        exact absurd (wayDown_mem (hrep.kid hkid) hway') (Node.id_notMem_kid hnodup hkid)
  | cons e way ih =>
    intro h n way' hrep hnodup hway hway'
    cases h with
    | zero => exact absurd hway (not_wayDown_leaf hrep)
    | succ h =>
      obtain ⟨hp, k, hk, hway⟩ := (wayDown_cons hrep).mp hway
      have hkid := mem_of_getElem? hk
      have hmem := wayDown_mem (hrep.kid hkid) hway
      cases way' with
      | nil =>
        obtain rfl : n.id = x := hway'
        exact absurd hmem (Node.id_notMem_kid hnodup hkid)
      | cons e' way' =>
        obtain ⟨hp', k', hk', hway'⟩ := (wayDown_cons hrep).mp hway'
        have hkid' := mem_of_getElem? hk'
        -- both ways pass the kid the page lies below
        obtain rfl := Node.kid_unique hnodup hkid hkid' hmem (wayDown_mem (hrep.kid hkid') hway')
        have hj := (getElem?_inj (List.getElem?_eq_some_iff.mp hk).1 (Node.kids_nodup hnodup)).mp
          (hk.trans hk'.symm)
        rw [ih (hrep.kid hkid) (Node.kid_nodup hnodup hkid) hway hway']
        exact congrArg (· :: way') (Prod.ext (hp.symm.trans hp') hj)

/-- A way goes on over one more link. -/
theorem Session.WayDown.snoc {node : Internal} {j : Nat} {c : PageId}
    (hlook : s.look x = some (.inr node)) (hj : node.children[j]? = some c) :
    ∀ {id : PageId}, s.WayDown id way x → s.WayDown id (way ++ [(x, j)]) c := by
  induction way with
  | nil => exact fun hway => ⟨hway, node, c, hlook, hj, rfl⟩
  | cons e way ih =>
    rintro id ⟨hid, node', c', hlook', hj', hway⟩
    exact ⟨hid, node', c', hlook', hj', ih hway⟩

/-- A way leads down to each leaf, along its path. -/
theorem exists_wayDown_leaf : ∀ {h : Nat} {n : PageTree h} {l : PageId × List PageId},
    Rep s.Shows n → l ∈ n.leafPaths →
    ∃ way, s.WayDown n.id way l.1 ∧ way.map Prod.fst = l.2 := by
  intro h
  induction h with
  | zero =>
    intro n l _ hl
    rw [mem_singleton.mp hl]
    exact ⟨[], rfl, rfl⟩
  | succ h ih =>
    intro n l hrep hl
    rw [Node.leafPaths_eq_kids] at hl
    obtain ⟨l', hl', rfl⟩ := mem_map.mp hl
    obtain ⟨k, hk, hlk⟩ := mem_flatMap.mp hl'
    obtain ⟨way, hway, hmap⟩ := ih (hrep.kid hk) hlk
    obtain ⟨j, hj⟩ := getElem?_of_mem hk
    exact ⟨(n.id, j) :: way, (wayDown_cons hrep).mpr ⟨rfl, k, hj, hway⟩, by rw [map_cons, hmap]⟩

/-- A way leads down to each page of the tree. -/
theorem exists_wayDown : ∀ {h : Nat} {n : PageTree h}, Rep s.Shows n → x ∈ n.ids →
    ∃ way, s.WayDown n.id way x := by
  intro h
  induction h with
  | zero =>
    intro n _ hx
    obtain ⟨id, records, rfl⟩ := n.exists_leaf
    exact ⟨[], (mem_singleton.mp hx).symm⟩
  | succ h ih =>
    intro n hrep hx
    rw [Node.ids_eq_kids] at hx
    rcases mem_cons.mp hx with rfl | hx
    · exact ⟨[], rfl⟩
    · obtain ⟨k, hk, hxk⟩ := mem_flatMap.mp hx
      obtain ⟨way, hway⟩ := ih (hrep.kid hk) hxk
      obtain ⟨j, hj⟩ := getElem?_of_mem hk
      exact ⟨(n.id, j) :: way, (wayDown_cons hrep).mpr ⟨rfl, k, hj, hway⟩⟩

end Ways

section Books

variable {g : Surroundings} {s s' : Session} {retired : List PageId} {i : Image}
  {last : Option Bytes} {hash : HashOrder}

/-- One way leads from the root to each page of the image, and to no other page. -/
theorem Carries.wayDown_unique (hs : Carries g s retired i) {x : PageId} (hx : x ∈ i.ids) :
    ∃! way, s.WayDown s.rootPageId way x := by
  cases i with
  | empty => cases hx
  | tree t =>
    rw [← hs.root]
    obtain ⟨way, hway⟩ := exists_wayDown hs.rep hx
    exact ⟨way, hway, fun way' hway' =>
      Pagedb.wayDown_unique hs.rep hs.live.ids_nodup hway' hway⟩

theorem Carries.wayDown_mem (hs : Carries g s retired i) {way : List (PageId × Nat)} {x : PageId}
    (hroot : s.rootPageId ≠ 0) (hway : s.WayDown s.rootPageId way x) : x ∈ i.ids := by
  cases i with
  | empty => exact absurd (hs.root_eq_zero.mpr rfl) hroot
  | tree t =>
    rw [← hs.root] at hway
    exact Pagedb.wayDown_mem hs.rep hway

/-- **The recorded parent paths are current.**  In a session that calls reach, one
    way leads to each cached leaf; the dirty leaves have their paths recorded, and
    a recorded path is that way.  Behind a flush one way leads to each page, no
    link names a page given up, and the map is the same. -/
theorem parent_paths_are_current (h : Reached hash s last) :
    (∀ leaf, leaf ∈ s.dirtyLeaves ∨ leaf ∈ s.freshLeaves →
        ∃! way, s.WayDown s.rootPageId way leaf)
      ∧ (∀ leaf, leaf ∈ s.dirtyParentPaths ↔ leaf ∈ s.dirtyLeaves)
      ∧ (∀ leaf path, s.dirtyParentPaths.lookup leaf = some path →
        ∃ way, s.WayDown s.rootPageId way leaf ∧ way.map Prod.fst = path)
      ∧ ∀ u s', materializeDirty hash s = .ok u s' → s'.map = s.map
        ∧ (s'.rootPageId ≠ 0 → ∀ way x, s'.WayDown s'.rootPageId way x →
          (∀ way', s'.WayDown s'.rootPageId way' x → way' = way)
          ∧ ∀ node, s'.look x = some (.inr node) → ∀ c ∈ node.children, c ∉ s'.given) := by
  obtain ⟨g, retired, i, hs, -⟩ := h.kept
  have hc := hs.live.caches
  refine ⟨fun leaf hleaf => hs.wayDown_unique ?_, hc.path_keys, fun leaf path hpath => ?_, ?_⟩
  · exact hleaf.elim (hc.dirty_mem leaf) (hc.fresh_mem leaf)
  · cases i with
    | empty => cases hc.path_mem leaf path hpath
    | tree t =>
      rw [← hs.root]
      exact exists_wayDown_leaf hs.rep (hc.path_mem leaf path hpath)
  · intro u s' hrun
    obtain ⟨i', retired', hs', hmap, -, hdirty⟩ := materializeDirty_spec hs hrun
    refine ⟨by rw [hs.readable.map_eq, hs'.readable.map_eq, hmap], fun hroot way x hway => ⟨?_, ?_⟩⟩
    · exact fun way' hway' => (hs'.wayDown_unique (hs'.wayDown_mem hroot hway)).unique hway' hway
    · intro node hlook c hchild hgiven
      obtain ⟨j, hj⟩ := getElem?_of_mem hchild
      have hmem : c ∈ i'.ids := hs'.wayDown_mem hroot (.snoc hlook hj hway)
      have hreached : c ∈ s'.reached := (hs'.reached_iff c).mpr (mem_append_left _ hmem)
      have hnone := (hs'.given_reached hgiven).mp hreached
      rw [hdirty] at hnone
      exact AList.notMem_empty _ hnone

theorem parent_paths_are_current_split_leaf :
    ∃ s, runCalls HashOrder.stable [.put [10] quarter, .put [20] quarter, .put [30] quarter,
        .put [40] quarter, .put [50] quarter, .flush, .put [10] [1]] Session.blank = .ok () s
      ∧ ∃ leaf path p, s.dirtyParentPaths.lookup leaf = some path ∧ path = [p]
        ∧ ∃ way, s.WayDown s.rootPageId way leaf ∧ way.map Prod.fst = path := by
  refine exists_ok_imp (P := fun s : Session => ∃ l ∈ s.dirtyParentPaths.toList, l.2.length = 1)
    (by decide +kernel) fun s hrun ⟨⟨leaf, path⟩, hmem, hlen⟩ => ?_
  obtain ⟨p, rfl⟩ := length_eq_one_iff.mp hlen
  have hreached : Reached HashOrder.stable s none :=
    Reached.runCalls _ (by decide) Reached.blank hrun
  have hpath := Table.mem_toList.mp hmem
  exact ⟨leaf, [p], p, hpath, rfl, (parent_paths_are_current hreached).2.2.1 leaf [p] hpath⟩

/-- **An append along a stale path.**  The flush moved the leaf that the remembered
    path ends at; the append makes the old page dirty, and records for it the way
    of a root that it is not. -/
theorem stale_append_path_is_recorded :
    ∃ s, runCalls HashOrder.stable [.putAppend [1] [1], .putAppend [2] [2], .flush,
        .putAppend [3] [3]] Session.blank = .ok () s
      ∧ ∃ leaf ∈ s.dirtyLeaves, ∃ path, s.dirtyParentPaths.lookup leaf = some path
        ∧ ¬ ∃ way, s.WayDown s.rootPageId way leaf ∧ way.map Prod.fst = path := by
  refine exists_ok_imp (P := fun s => s.dirtyParentPaths.lookup 4 = some [] ∧ s.rootPageId ≠ 4
    ∧ (s.dirtyLeaves.lookup 4).isSome) (by decide +kernel) fun s _ ⟨hpath, hroot, hdirty⟩ => ?_
  refine ⟨4, AList.lookup_isSome.mp hdirty, [], hpath, ?_⟩
  rintro ⟨way, hway, hmap⟩
  rw [map_eq_nil_iff] at hmap
  rw [hmap] at hway
  exact hroot hway

end Books

end Pagedb
