/-
  Pagedb.BTree.Walk — from leaf to leaf (`btree/tree/navigate.rs`).

  A walk never looks at sibling links: it climbs to the first ancestor with a
  child beyond it and goes down that child's near edge.  Both directions are one
  argument, over `Lib.Side`.

    * `climb_returns`     — the climb ends below the first branch with a child
      beyond, or past the root;
    * `neighbour_returns` — so the next leaf of the walk is the next leaf of the
      tree;
    * `Stands`            — where a walk stands, and the leaves still to come.
-/
import Pagedb.Lib.TreeLeaves
import Pagedb.BTree.Refine
import Pagedb.BTree.Scan

namespace Pagedb

open Lib List

/-! ## §1. One branch -/

/-- `right_sibling_child` or `left_sibling_child`. -/
def siblingChild : Side → Internal → PageId → Option PageId
  | .left => Internal.leftSiblingChild
  | .right => Internal.rightSiblingChild

/-- The child a walk to that side meets first. -/
def edgeChild : Side → Internal → PageId
  | .left => Internal.rightmostChild
  | .right => Internal.leftmostChild

/-- `next_leaf_after` or `prev_leaf_before`. -/
def neighbour (d : Side) : List PageId → TreeM (Option (List PageId)) :=
  neighbourLeaf (siblingChild d) (edgeChild d)

variable {h H : Nat}

/-- The links before the hole do not lead into it. -/
theorem dropWhile_links {n : PageTree h} {before : List (Bytes × PageTree h)} (k : Bytes)
    (after : List (Bytes × PageTree h)) (hne : ∀ e ∈ before, e.2.id ≠ n.id) :
    (Node.links (before ++ (k, n) :: after)).dropWhile (fun e => e.2 ≠ n.id)
        = (k, n.id) :: Node.links after
      ∧ (Node.links (before ++ (k, n) :: after)).takeWhile (fun e => e.2 ≠ n.id)
        = Node.links before := by
  have hlinks : Node.links (before ++ (k, n) :: after)
      = Node.links before ++ (k, n.id) :: Node.links after := by
    unfold Node.links
    rw [map_append]
    rfl
  have hall : ∀ e ∈ Node.links before, decide (e.2 ≠ n.id) = true := by
    intro e he
    obtain ⟨e', he', rfl⟩ := mem_map.mp he
    exact decide_eq_true (hne e' he')
  rw [hlinks, dropWhile_append_of_pos hall, takeWhile_append_of_pos hall]
  refine ⟨dropWhile_cons_of_neg (by simp), ?_⟩
  rw [takeWhile_cons_of_neg (by simp), append_nil]

/-- The children before the hole have other ids. -/
theorem hole_apart {id : PageId} {first n : PageTree h} {before after : List (Bytes × PageTree h)}
    {k : Bytes}
    (hnodup : (((Frame.atLater id first before k after).fill n).kids.map Node.id).Nodup) :
    ¬ first.id = n.id ∧ ∀ e ∈ before, e.2.id ≠ n.id := by
  have hnodup : ((first :: (before ++ (k, n) :: after).map Prod.snd).map Node.id).Nodup := hnodup
  rw [map_cons, map_map, map_append, map_cons] at hnodup
  have hkids : (first.id :: (before.map fun e => e.2.id)
      ++ n.id :: after.map fun e => e.2.id).Nodup := hnodup
  have hnot : n.id ∉ first.id :: before.map fun e => e.2.id := fun hmem =>
    disjoint_of_nodup_append hkids hmem mem_cons_self
  refine ⟨fun heq => hnot (heq ▸ mem_cons_self), fun e he heq => ?_⟩
  exact hnot (mem_cons_of_mem _ (heq ▸ mem_map_of_mem (f := fun e => e.2.id) he))

/-- **The sibling the code looks up is the one next to the hole.** -/
theorem siblingChild_fill (d : Side) (f : Frame PageId Bytes Stored h) (n : PageTree h)
    (hnodup : ((f.fill n).kids.map Node.id).Nodup) :
    siblingChild d (nodeOf (f.fill n)) n.id = (f.shift d n).map fun r => r.2.id := by
  cases f with
  | atFirst id rest =>
    cases d with
    | left => exact if_pos rfl
    | right =>
      show (if n.id = n.id then (Node.links rest).head?.map Prod.snd else _) = _
      rw [if_pos rfl]
      cases rest <;> rfl
  | atLater id first before k after =>
    obtain ⟨hfirst, hbefore⟩ := hole_apart hnodup
    obtain ⟨hdrop, htake⟩ := dropWhile_links k after hbefore
    cases d with
    | right =>
      show (if first.id = n.id then _ else _) = _
      rw [if_neg hfirst]
      dsimp only [Frame.fill, nodeOf]
      rw [hdrop]
      cases after <;> rfl
    | left =>
      show (if first.id = n.id then none else _) = _
      rw [if_neg hfirst]
      dsimp only [Frame.fill, nodeOf]
      rw [hdrop, htake]
      rcases eq_nil_or_concat before with rfl | ⟨init, e, rfl⟩
      · rfl
      · rw [concat_eq_append]
        unfold Frame.shift Node.links
        simp

/-- A branch from its near edge: nothing lies before the first child it has on
    that side. -/
theorem exists_edge_frame (d : Side) (id : PageId) (first : PageTree h)
    (rest : List (Bytes × PageTree h)) :
    ∃ f child, (Node.branch id first rest : PageTree (h + 1)) = Frame.fill f child ∧ f.id = id
      ∧ child.id = edgeChild d ⟨first.id, Node.links rest⟩ ∧ f.beyond d.flip = [] := by
  cases d with
  | right => exact ⟨.atFirst id rest, first, rfl, rfl, rfl, rfl⟩
  | left =>
    rcases eq_nil_or_concat rest with rfl | ⟨init, e, rfl⟩
    · exact ⟨.atFirst id [], first, rfl, rfl, rfl, rfl⟩
    · refine ⟨.atLater id first init e.1 [], e.2, ?_, rfl, ?_, rfl⟩
      · rw [concat_eq_append]
        rfl
      · show e.2.id = ((Node.links (init.concat e)).getLast?.map Prod.snd).getD first.id
        rw [concat_eq_append]
        unfold Node.links
        simp

/-! ## §2. Up -/

variable {s : Session} {n : PageTree h}

theorem readAncestor_returns {m : PageTree (h + 1)} (hshow : s.Shows m.id m.cell) :
    Returns Session.Clear (readAncestor m.id) s fun r s' => r = nodeOf m ∧ s.Quiet s' := by
  obtain ⟨hpage, -⟩ := Session.page_of_look_internal ((shows_nodeOf m).mp hshow)
  unfold readAncestor
  refine (readNodeGuard_internal hpage).bind ?_
  rintro _ t ⟨rfl, hq⟩
  exact Returns.pure ⟨rfl, hq⟩

theorem kids_ids_nodup {m : PageTree (h + 1)} (hnodup : m.ids.Nodup) : (m.kids.map Node.id).Nodup := by
  rw [Node.ids_eq_kids] at hnodup
  refine (nodup_cons.mp hnodup).2.sublist ?_
  induction m.kids with
  | nil => exact List.Sublist.refl _
  | cons k kids ih =>
    rw [map_cons, flatMap_cons, ← singleton_append]
    exact (singleton_sublist.mpr k.id_mem_ids).append ih

/-- Where a climb from the hole of `c` ends: a hole further on, around a subtree
    whose leaves come next.  Everything passed on the way up lies outside it. -/
structure Reaches (d : Side) (c : Ctx PageId Bytes Stored h H) (n : PageTree h) {h' : Nat}
    (c' : Ctx PageId Bytes Stored h' H) (m : PageTree h') : Prop where
  same : c'.plug m = c.plug n
  ahead : c.ahead d = (d.order m.leaves).map (LeafAt.under c'.pathIds.reverse) ++ c'.ahead d
  passed : ∀ p ∈ c.pathIds ++ n.ids, p ∈ c'.ids

/-- **The climb ends below the first branch with a child beyond.** -/
theorem climb_returns (d : Side) (c : Ctx PageId Bytes Stored h H) :
    ∀ (n : PageTree h) (s : Session), Rep s.Shows (c.plug n) → (c.plug n).ids.Nodup →
      Returns Session.Clear (climb (siblingChild d) c.pathIds n.id) s fun r s' => s.Quiet s' ∧
        match r with
        | none => c.ahead d = []
        | some (common, next) => ∃ (h' : Nat) (c' : Ctx PageId Bytes Stored h' H) (m : PageTree h'),
            Reaches d c n c' m ∧ common = c'.pathIds.reverse ∧ next = m.id := by
  induction c with
  | top =>
    intro n s _ _
    exact Returns.pure ⟨Session.Quiet.refl s, rfl⟩
  | cons f up ih =>
    intro n s hrep hnodup
    have hrep : Rep s.Shows (up.plug (f.fill n)) := hrep
    have hcells := up.plug_cells (f.fill n)
    have hids := up.plug_ids (f.fill n)
    have hown : s.Shows (f.fill n).id (f.fill n).cell :=
      hrep _ (hcells.mem_iff.mpr (mem_append_left _ (f.fill n).own_cell_mem))
    have hsub : (f.fill n).ids.Nodup := (hids.nodup_iff.mp hnodup).of_append_left
    have hin : ∀ p ∈ f.id :: n.ids, p ∈ (f.fill n).ids := by
      intro p hp
      rw [Node.ids_eq_kids, Frame.fill_id]
      rcases mem_cons.mp hp with rfl | hp
      · exact mem_cons_self
      · refine mem_cons_of_mem _ (mem_flatMap.mpr ⟨n, ?_, hp⟩)
        rw [Frame.fill_kids_sides]
        exact mem_append_right _ mem_cons_self
    show Returns Session.Clear (climb (siblingChild d) (f.id :: up.pathIds) n.id) s _
    unfold climb
    rw [← Frame.fill_id f n]
    refine (readAncestor_returns hown).bind ?_
    rintro _ t ⟨rfl, hq⟩
    rw [siblingChild_fill d f n (kids_ids_nodup hsub)]
    cases hs : f.shift d n with
    | none =>
      -- nothing further on below this branch: the walk goes on above it
      have hahead : (Ctx.cons f up).ahead d = up.ahead d := by
        rw [Ctx.ahead_cons, Frame.shift_eq_none hs]
        rfl
      refine (ih (f.fill n) t (fun e he => hq.shows (hrep e he)) hnodup).weaken ?_
      rintro r u ⟨hq', hr⟩
      refine ⟨hq.trans hq', ?_⟩
      cases r with
      | none => exact hahead.trans hr
      | some r =>
        obtain ⟨h', c', m, hreach, hcommon, hnext⟩ := hr
        refine ⟨h', c', m, ⟨hreach.same, hahead.trans hreach.ahead, ?_⟩, hcommon, hnext⟩
        intro p hp
        refine hreach.passed p ?_
        rcases mem_append.mp hp with hp | hp
        · rcases mem_cons.mp hp with rfl | hp
          · exact mem_append_right _ (hin _ mem_cons_self)
          · exact mem_append_left _ hp
        · exact mem_append_right _ (hin _ (mem_cons_of_mem _ hp))
    | some r =>
      obtain ⟨f', m⟩ := r
      obtain ⟨hfill, hbeyond, hleft⟩ := Frame.shift_eq_some hs
      have hid : f'.id = f.id := Frame.shift_id hs
      refine Returns.pure ⟨hq, _, .cons f' up, m, ⟨?_, ?_, ?_⟩, ?_, rfl⟩
      · show up.plug (f'.fill m) = up.plug (f.fill n)
        rw [hfill]
      · rw [Ctx.ahead_cons, hbeyond, flatMap_cons, map_append, Ctx.ahead_cons, hid, append_assoc]
        show _ = (d.order m.leaves).map (LeafAt.under (f'.id :: up.pathIds).reverse) ++ _
        rw [reverse_cons, hid]
      · intro p hp
        show p ∈ f'.id :: (f'.siblings.flatMap Node.ids ++ up.ids)
        rcases mem_append.mp hp with hp | hp
        · rcases mem_cons.mp hp with rfl | hp
          · rw [hid]
            exact mem_cons_self
          · exact mem_cons_of_mem _ (mem_append_right _ (up.pathIds_subset hp))
        · refine mem_cons_of_mem _ (mem_append_left _ ?_)
          exact mem_flatMap.mpr ⟨n, hleft, hp⟩
      · show (Node.id (f.fill n) :: up.pathIds).reverse = (f'.id :: up.pathIds).reverse
        rw [Frame.fill_id, hid]

/-! ## §3. Along -/

/-- The walk to side `d` stands at the end of `path`; `rest` are the leaf there and
    the leaves still to come. -/
def Stands (d : Side) (t : PageTree H) (path : List PageId)
    (rest : List (LeafAt PageId Bytes Stored)) : Prop :=
  ∃ (c : Ctx PageId Bytes Stored 0 H) (id : PageId) (records : List (Bytes × Stored)),
    t = c.plug (.leaf id records) ∧ path = c.pathIds.reverse ++ [id]
      ∧ rest = ⟨c.pathIds.reverse, id, records⟩ :: c.ahead d

/-- The subtree at a climb's end, entered by its near edge. -/
theorem Reaches.enter {d : Side} {c : Ctx PageId Bytes Stored 0 H} {leaf : PageTree 0} {h' : Nat}
    {c' : Ctx PageId Bytes Stored h' H} {m : PageTree h'} (hreach : Reaches d c leaf c' m)
    {inner : Ctx PageId Bytes Stored 0 h'} {id : PageId} {records : List (Bytes × Stored)}
    (hm : m = inner.plug (.leaf id records)) (hedge : inner.Forall fun f => f.beyond d.flip = []) :
    Stands d (c.plug leaf) (c'.pathIds.reverse ++ (inner.pathIds.reverse ++ [id])) (c.ahead d) := by
  have hpath : (inner.comp c').pathIds.reverse = c'.pathIds.reverse ++ inner.pathIds.reverse := by
    rw [Ctx.pathIds_comp, reverse_append]
  refine ⟨inner.comp c', id, records, ?_, ?_, ?_⟩
  · rw [Ctx.plug_comp, ← hm]
    exact hreach.same.symm
  · rw [hpath, append_assoc]
  · rw [hreach.ahead, hm, Ctx.plug_leaves, Ctx.ahead_eq_nil hedge, Ctx.ahead_comp, hpath]
    have hone : d.order (Node.leaf id records : PageTree 0).leaves = [⟨[], id, records⟩] :=
      Side.order_singleton d _
    rw [hone]
    show ((⟨inner.pathIds.reverse ++ [], id, records⟩ :: inner.ahead d).map _) ++ c'.ahead d = _
    rw [append_nil, map_cons]
    rfl

/-- **The next leaf of the walk is the next leaf of the tree.** -/
theorem neighbour_returns {d : Side} {t : PageTree H} {path : List PageId}
    {l : LeafAt PageId Bytes Stored} {ls : List (LeafAt PageId Bytes Stored)}
    (hr : Readable s (.tree t)) (hstand : Stands d t path (l :: ls)) :
    Returns Session.Clear (neighbour d path) s fun r s' => s.Quiet s' ∧
      match r with
      | none => ls = []
      | some next => Stands d t next ls := by
  obtain ⟨c, id, records, rfl, rfl, hrest⟩ := hstand
  obtain ⟨-, rfl⟩ := List.cons.inj hrest
  have hrep : Rep s.Shows (c.plug (.leaf id records)) := hr.rep
  have hnodup : (c.plug (.leaf id records)).ids.Nodup := hr.nodup
  unfold neighbour neighbourLeaf
  rw [getLast?_concat, dropLast_concat, reverse_reverse]
  refine (climb_returns d c (.leaf id records) s hrep hnodup).bind ?_
  rintro r u ⟨hq, hr'⟩
  cases r with
  | none => exact Returns.pure ⟨hq, hr'⟩
  | some r =>
    obtain ⟨h', c', m, hreach, hcommon, hnext⟩ := hr'
    obtain ⟨common, next⟩ := r
    dsimp only at hcommon hnext ⊢
    subst hcommon hnext
    refine Returns.get ?_
    -- the way up and the subtree ahead share no page
    have hids := c'.plug_ids m
    rw [hreach.same] at hids
    have hapart := hids.nodup_iff.mp hnodup
    have hpath : (c.pathIds.reverse ++ [id]).Nodup := by
      have hown := (c.plug_ids (.leaf id records)).nodup_iff.mp hnodup
      have hsub : (id :: c.pathIds).Sublist ((Node.leaf id records : PageTree 0).ids ++ c.ids) :=
        (List.Sublist.refl [id]).append c.pathIds_sublist
      have hperm : (c.pathIds.reverse ++ [id]).Perm (id :: c.pathIds) := by
        rw [← reverse_cons]
        exact reverse_perm _
      exact hperm.nodup_iff.mpr (hown.sublist hsub)
    have hguard : (c.pathIds.reverse ++ [id] ++ m.ids).Nodup := by
      refine nodup_append.mpr ⟨hpath, hapart.of_append_left, ?_⟩
      intro p hp q hq' heq
      subst heq
      refine disjoint_of_nodup_append hapart hq' (hreach.passed p ?_)
      rcases mem_append.mp hp with hp | hp
      · exact mem_append_left _ (mem_reverse.mp hp)
      · exact mem_append_right _ hp
    have hcells := c'.plug_cells m
    rw [hreach.same] at hcells
    have hbound : h' < u.pager.pageCount + 1 := by
      have hlt := hr.height_lt
      have hle : h' ≤ H := c'.height_le
      obtain ⟨faults, rfl⟩ := hq
      exact Nat.lt_of_le_of_lt hle hlt
    refine (descendFrom_returns (G := fun _ => True) (P := fun f => f.beyond d.flip = [])
      (fun id first rest _ => ?_) m _ _ u (fun e he => hq.shows (hrep e ?_)) trivial hguard
      (fun h0 => hr.zero ?_) ?_ hbound).bind ?_
    · obtain ⟨f, child, hfill, hid, hchild, hedge⟩ := exists_edge_frame d id first rest
      exact ⟨f, child, hfill, hid, hchild, trivial, hedge⟩
    · exact hcells.mem_iff.mpr (mem_append_left _ he)
    · exact hids.mem_iff.mpr (mem_append_left _ h0)
    · obtain ⟨faults, rfl⟩ := hq
      exact hr.paged
    · rintro ⟨full, leaf⟩ v ⟨hq', inner, lid, lrecords, hm, hedge, hfull, -⟩
      dsimp only at hfull ⊢
      refine Returns.pure ⟨hq.trans hq', ?_⟩
      rw [hfull, drop_left]
      exact hreach.enter hm hedge

end Pagedb
