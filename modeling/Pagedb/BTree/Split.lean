/-
  Pagedb.BTree.Split — a split on its way up the spine (`propagate_split_up`).

  Each turn of the loop replaces the branch around the hole, by one branch if
  it has room for the new separator and by two if it has not.  Once it had
  room, the rest of the spine is copied with one link changed.

    * `copySpine_spec`, `propagateSplitUp_spec` — the hole is closed, and the
      read-out is the one that was put into it.
-/
import Pagedb.BTree.Invariant

namespace Pagedb

open Lib List

variable {h H : Nat}

/-! ## §1. The branch around a hole -/

/-- The branch around a hole as its page decodes. -/
def frameNode (hole : PageId) : Frame PageId Bytes Stored h → Internal
  | .atFirst _ rest => ⟨hole, Node.links rest⟩
  | .atLater _ first before k after =>
    ⟨first.id, Node.links before ++ (k, hole) :: Node.links after⟩

theorem shows_frameNode {s : Session} {p hole : PageId} (f : Frame PageId Bytes Stored h) :
    s.Shows p (f.cell hole) ↔ s.look p = some (.inr (frameNode hole f)) := by
  cases f <;> exact Iff.rfl

theorem nodeOf_fill (f : Frame PageId Bytes Stored h) (n : PageTree h) :
    nodeOf (f.fill n) = frameNode n.id f := by
  cases f with
  | atFirst id rest => rfl
  | atLater id first before k after =>
    show (⟨first.id, Node.links (before ++ (k, n) :: after)⟩ : Internal) = _
    unfold Node.links
    rw [map_append]
    rfl

theorem children_nodeOf (n : PageTree (h + 1)) : (nodeOf n).children = n.kids.map Node.id := by
  obtain ⟨id, first, rest, rfl⟩ := n.exists_branch
  show first.id :: (Node.links rest).map Prod.snd = first.id :: (rest.map Prod.snd).map Node.id
  unfold Node.links
  rw [map_map, map_map]
  rfl

theorem frameNode_withId (i hole : PageId) (f : Frame PageId Bytes Stored h) :
    frameNode hole (f.withId i) = frameNode hole f := by
  cases f <;> rfl

theorem repointEntries_append {old new : PageId} {k : Bytes} {b : List (Bytes × PageId)}
    (a : List (Bytes × PageId)) (ha : ∀ e ∈ a, e.2 ≠ old) :
    repointEntries old new (a ++ (k, old) :: b) = a ++ (k, new) :: b := by
  induction a with
  | nil =>
    show (if old = old then _ else _) = _
    rw [if_pos rfl]
    rfl
  | cons e a ih =>
    show (if e.2 = old then _ else e :: repointEntries old new (a ++ (k, old) :: b)) = _
    rw [if_neg (ha e mem_cons_self), ih fun x hx => ha x (mem_cons_of_mem _ hx)]
    rfl

/-- Repointing the hole's link changes that link only. -/
theorem repoint_frameNode {f : Frame PageId Bytes Stored h} {old : PageId} (new : PageId)
    (hold : ∀ n ∈ f.siblings, n.id ≠ old) :
    (frameNode old f).repoint old new = frameNode new f := by
  cases f with
  | atFirst id rest =>
    show (if old = old then _ else _) = _
    rw [if_pos rfl]
    rfl
  | atLater id first before k after =>
    have hfirst : first.id ≠ old := hold first mem_cons_self
    show (if first.id = old then _ else _) = _
    rw [if_neg hfirst]
    show (⟨first.id, repointEntries old new
      (Node.links before ++ (k, old) :: Node.links after)⟩ : Internal) = ⟨first.id, _⟩
    rw [repointEntries_append]
    intro e he
    obtain ⟨x, hx, rfl⟩ := mem_map.mp he
    refine hold x.2 (mem_cons_of_mem _ (mem_append_left _ ?_))
    exact mem_map_of_mem hx

theorem sep_mem_flatMap {e : Bytes × PageTree h} {l : List (Bytes × PageTree h)} (he : e ∈ l) :
    Item.sep e.1 ∈ l.flatMap fun e => Item.sep e.1 :: e.2.items :=
  mem_flatMap.mpr ⟨e, he, mem_cons_self⟩

/-- A separator that belongs into the hole goes right behind the hole's link. -/
theorem upsert_frameNode {f : Frame PageId Bytes Stored h} {l r : PageTree h} {sep : Bytes}
    (i : PageId) (hbefore : ∀ x ∈ f.itemsBefore, x.lt (.sep sep))
    (hafter : ∀ x ∈ f.itemsAfter, (Item.sep sep).lt x) :
    (frameNode l.id f).upsert sep r.id = nodeOf (f.fillPair i l sep r) := by
  cases f with
  | atFirst id rest =>
    have ha : Around sep [] (Node.links rest) := by
      refine ⟨nofun, fun e he => ?_⟩
      obtain ⟨x, hx, rfl⟩ := mem_map.mp he
      exact hafter _ (sep_mem_flatMap hx)
    show (⟨l.id, upsertSorted sep r.id (around [] sep none (Node.links rest))⟩ : Internal) = _
    rw [upsertSorted_around ha]
    rfl
  | atLater id first before k after =>
    have ha : Around sep (Node.links before ++ [(k, l.id)]) (Node.links after) := by
      constructor
      · intro e he
        rcases mem_concat.mp he with he | rfl
        · obtain ⟨x, hx, rfl⟩ := mem_map.mp he
          refine hbefore (.sep x.1) (mem_append_left _ (mem_append_right _ ?_))
          exact sep_mem_flatMap hx
        · exact hbefore (.sep k) mem_concat_self
      · intro e he
        obtain ⟨x, hx, rfl⟩ := mem_map.mp he
        exact hafter _ (sep_mem_flatMap hx)
    have hentries : Node.links before ++ (k, l.id) :: Node.links after
        = around (Node.links before ++ [(k, l.id)]) sep none (Node.links after) := by
      unfold around
      simp
    show (⟨first.id, upsertSorted sep r.id
      (Node.links before ++ (k, l.id) :: Node.links after)⟩ : Internal) = _
    rw [hentries, upsertSorted_around ha]
    show _ = (⟨first.id, Node.links (before ++ (k, l) :: (sep, r) :: after)⟩ : Internal)
    unfold around Node.links
    simp

/-- The two halves of a branch that has to split. -/
theorem split_nodeOf {first : PageTree h} {rest : List (Bytes × PageTree h)}
    {l r : Internal} {promoted : Bytes}
    (hsplit : (⟨first.id, Node.links rest⟩ : Internal).split = some (l, r, promoted)) :
    ∃ a x b, rest = a ++ (promoted, x) :: b ∧ l = ⟨first.id, Node.links a⟩
      ∧ r = ⟨x.id, Node.links b⟩ := by
  unfold Internal.split at hsplit
  dsimp only at hsplit
  have hdrop : (Node.links rest).drop ((Node.links rest).length / 2)
      = Node.links (rest.drop ((Node.links rest).length / 2)) := map_drop.symm
  have htake : (Node.links rest).take ((Node.links rest).length / 2)
      = Node.links (rest.take ((Node.links rest).length / 2)) := map_take.symm
  rw [hdrop, htake] at hsplit
  generalize (Node.links rest).length / 2 = mid at hsplit
  have hrest := take_append_drop mid rest
  cases hd : rest.drop mid with
  | nil => rw [hd] at hsplit; cases hsplit
  | cons e b =>
    rw [hd] at hsplit hrest
    obtain ⟨rfl, rfl, rfl⟩ : _ ∧ _ ∧ _ := by
      have h := Option.some.inj hsplit
      exact ⟨congrArg Prod.fst h, congrArg (fun q => q.2.1) h, congrArg (fun q => q.2.2) h⟩
    exact ⟨rest.take mid, e.2, b, hrest.symm, rfl, rfl⟩

/-! ## §2. The cached parent paths follow -/

section Remap

variable {f : Frame PageId Bytes Stored h} {up : Ctx PageId Bytes Stored (h + 1) H}
  {ns : List (PageTree h)}

theorem map_replace_notMem {old new : PageId} {l : List PageId} (hl : old ∉ l) :
    l.map (fun p => if p = old then new else p) = l := by
  refine (map_congr_left fun p hp => ?_).trans (map_id l)
  have hne : p ≠ old := fun heq => hl (heq ▸ hp)
  rw [if_neg hne]
  rfl

theorem map_replace {old new : PageId} {a b : List PageId} (ha : old ∉ a) (hb : old ∉ b) :
    (a ++ old :: b).map (fun p => if p = old then new else p) = a ++ new :: b := by
  rw [map_append, map_cons, map_replace_notMem ha, map_replace_notMem hb, if_pos rfl]

theorem remapSplitPath_notMem {old left right leaf : PageId} {ch : List PageId} :
    ∀ {l : List PageId}, old ∉ l → remapSplitPath old left right ch leaf l = l := by
  intro l
  induction l with
  | nil => intro _; rfl
  | cons p l ih =>
    intro hl
    have hne : p ≠ old := fun heq => hl (heq ▸ mem_cons_self)
    show (if p = old then _ else p) :: remapSplitPath old left right ch leaf l = _
    rw [if_neg hne, ih fun hmem => hl (mem_cons_of_mem _ hmem)]

/-- The half a split path goes through is the one that holds its next hop. -/
theorem remapSplitPath_append {old left right leaf : PageId} {ch a b : List PageId}
    (ha : old ∉ a) (hb : old ∉ b) :
    remapSplitPath old left right ch leaf (a ++ old :: b)
      = a ++ (if ch.contains ((b.head?).getD leaf) then right else left) :: b := by
  induction a with
  | nil =>
    show (if old = old then _ else old) :: remapSplitPath old left right ch leaf b = _
    rw [if_pos rfl, remapSplitPath_notMem hb]
    rfl
  | cons p a ih =>
    have hne : p ≠ old := fun heq => ha (heq ▸ mem_cons_self)
    show (if p = old then _ else p) :: remapSplitPath old left right ch leaf (a ++ old :: b) = _
    rw [if_neg hne, ih fun hmem => ha (mem_cons_of_mem _ hmem)]
    rfl

/-- One branch in the frame's place. -/
theorem remaps_one {m : PageTree (h + 1)} (hkids : m.kids.Perm (ns ++ f.siblings))
    (hbelow : f.id ∉ (ns ++ f.siblings).flatMap Node.ids) (hup : f.id ∉ up.ids) :
    Remaps f up ns [m] fun _ path => path.map fun p => if p = f.id then m.id else p where
  below := by
    intro n hn l hl
    refine ⟨m, mem_singleton_self m, hkids.mem_iff.mpr hn, map_replace ?_ ?_⟩
    · exact fun hmem => hup (up.pathIds_subset (mem_reverse.mp hmem))
    · exact fun hmem => hbelow (mem_flatMap.mpr ⟨n, hn, Node.leafPaths_snd_mem _ n l hl _ hmem⟩)
  beside := fun l hl => map_replace_notMem fun hmem => hup (up.siblingPaths_snd_mem l hl _ hmem)

/-- Two branches in the frame's place. -/
theorem remaps_two {m m' : PageTree (h + 1)} (hkids : (m.kids ++ m'.kids).Perm (ns ++ f.siblings))
    (hnodup : ((ns ++ f.siblings).flatMap Node.ids).Nodup)
    (hbelow : f.id ∉ (ns ++ f.siblings).flatMap Node.ids) (hup : f.id ∉ up.ids) :
    Remaps f up ns [m, m'] (remapSplitPath f.id m.id m'.id (m'.kids.map Node.id)) where
  below := by
    intro n hn l hl
    have hpath : remapSplitPath f.id m.id m'.id (m'.kids.map Node.id) l.1
        (up.pathIds.reverse ++ f.id :: l.2) = up.pathIds.reverse
          ++ (if (m'.kids.map Node.id).contains n.id then m'.id else m.id) :: l.2 := by
      rw [← Node.leafPaths_head hl]
      refine remapSplitPath_append ?_ ?_
      · exact fun hmem => hup (up.pathIds_subset (mem_reverse.mp hmem))
      · exact fun hmem => hbelow (mem_flatMap.mpr ⟨n, hn, Node.leafPaths_snd_mem _ n l hl _ hmem⟩)
    rw [hpath]
    -- distinct children have distinct ids, so the test finds the right half
    have hids := (hkids.flatMap_right Node.ids).nodup_iff.mpr hnodup
    rw [flatMap_append] at hids
    have happart := disjoint_of_nodup_append hids
    rcases mem_append.mp (hkids.mem_iff.mpr hn) with hleft | hright
    · refine ⟨m, mem_cons_self, hleft, ?_⟩
      rw [if_neg]
      rw [contains_iff_mem]
      intro hmem
      obtain ⟨n', hn', heq⟩ := mem_map.mp hmem
      refine happart (mem_flatMap.mpr ⟨n, hleft, n.id_mem_ids⟩) (mem_flatMap.mpr ⟨n', hn', ?_⟩)
      rw [← heq]
      exact n'.id_mem_ids
    · refine ⟨m', mem_cons_of_mem _ (mem_singleton_self m'), hright, ?_⟩
      rw [if_pos]
      rw [contains_iff_mem]
      exact mem_map_of_mem hright
  beside := fun l hl => remapSplitPath_notMem fun hmem => hup (up.siblingPaths_snd_mem l hl _ hmem)

end Remap

/-! ## §3. The loops -/

namespace Hole

variable {g : Surroundings} {s t : Session} {retired : List PageId}
  {f : Frame PageId Bytes Stored h} {up : Ctx PageId Bytes Stored (h + 1) H} {old : PageId}
  {ns : List (PageTree h)} {mid : List (Item Bytes Stored)}

variable (hs : Hole g s retired (.cons f up) old ns mid)

include hs

theorem page_frame :
    s.pager.page f.id = some (.internal (frameNode old f)) := by
  have hlook := (shows_frameNode f).mp (hs.ctx (f.id, f.cell old) mem_cons_self)
  exact (Session.page_of_look_internal hlook).1

theorem frame_notMem :
    f.id ∉ (ns ++ f.siblings).flatMap Node.ids ∧ f.id ∉ up.ids := by
  have := (nodup_cons.mp (ids_perm.nodup_iff.mp hs.live.ids_nodup)).1
  exact ⟨fun h => this (mem_append_left _ h), fun h => this (mem_append_right _ h)⟩

theorem siblings_ne :
    ∀ n ∈ f.siblings, n.id ≠ old := by
  intro n hn heq
  refine hs.old_out (mem_cons_of_mem _ (mem_append_left _ ?_))
  exact mem_flatMap.mpr ⟨n, hn, heq ▸ n.id_mem_ids⟩

/-- One branch takes the frame's place. -/
theorem step_one {m : PageTree (h + 1)}
    (htouch : s.Touches [m.id] t) (hkids : m.kids.Perm (ns ++ f.siblings))
    (hpage : t.pager.page m.id = some (.internal (nodeOf m)))
    (hledger : Ledger g.source t (m.id :: outside g retired f up ns mid))
    (hitems : m.items = f.itemsBefore ++ mid ++ f.itemsAfter) :
    Hole g (remapDirtyParentPaths f.id m.id t) retired up f.id [m] m.items := by
  rw [hitems]
  refine hs.step htouch ?_ ?_ hledger (remaps_one hkids hs.frame_notMem.1 hs.frame_notMem.2)
  · rw [flatMap_singleton]
    exact hkids
  · intro m' hm'
    rw [mem_singleton.mp hm']
    exact hpage

/-- Two branches take the frame's place. -/
theorem step_two (m m' : PageTree (h + 1))
    (sep : Bytes) (htouch : s.Touches [m.id, m'.id] t)
    (hkids : (m.kids ++ m'.kids).Perm (ns ++ f.siblings))
    (hpage : t.pager.page m.id = some (.internal (nodeOf m)))
    (hpage' : t.pager.page m'.id = some (.internal (nodeOf m')))
    (hledger : Ledger g.source t (m.id :: m'.id :: outside g retired f up ns mid))
    (hitems : m.items ++ .sep sep :: m'.items = f.itemsBefore ++ mid ++ f.itemsAfter) :
    Hole g (remapDirtyParentPathsSplit f.id m.id m'.id (nodeOf m') t) retired up f.id [m, m']
      (m.items ++ .sep sep :: m'.items) := by
  have hnodup : ((ns ++ f.siblings).flatMap Node.ids).Nodup :=
    (nodup_cons.mp (ids_perm.nodup_iff.mp hs.live.ids_nodup)).2.of_append_left
  rw [hitems]
  unfold remapDirtyParentPathsSplit
  rw [children_nodeOf]
  refine hs.step htouch ?_ ?_ hledger (remaps_two hkids hnodup hs.frame_notMem.1 hs.frame_notMem.2)
  · rw [flatMap_cons, flatMap_singleton]
    exact hkids
  · intro n hn
    rcases mem_cons.mp hn with rfl | hn
    · exact hpage
    · rw [mem_singleton.mp hn]
      exact hpage'

omit hs

/-- The separator in the hole lies between what is left and right of it. -/
theorem sep_between {l r : PageTree h} {sep : Bytes}
    (hs : Hole g s retired (.cons f up) old ns (l.items ++ .sep sep :: r.items)) :
    (∀ x ∈ f.itemsBefore, x.lt (.sep sep)) ∧ ∀ x ∈ f.itemsAfter, (Item.sep sep).lt x := by
  have hord : InOrder (up.before ++ f.itemsBefore ++ (l.items ++ .sep sep :: r.items)
      ++ (f.itemsAfter ++ up.after)) := hs.live.ordered
  have hsep : Item.sep sep ∈ l.items ++ .sep sep :: r.items :=
    mem_append_right _ mem_cons_self
  constructor
  · intro x hx
    exact InOrder.lt_of_append (pairwise_append.mp hord).1 x (mem_append_right _ hx) _ hsep
  · intro x hx
    exact hord.lt_of_append _ (mem_append_right _ hsep) x (mem_append_left _ hx)

end Hole

/-- **The rest of the spine is copied** with its one changed link. -/
theorem copySpine_spec {g : Surroundings} {retired : List PageId}
    (c : Ctx PageId Bytes Stored h H) :
    ∀ {n : PageTree h} {old : PageId} {s s' : Session} {root : PageId},
      Hole g s retired c old [n] n.items → copySpine c.pathIds old n.id s = .ok root s' →
      ∃ m : PageTree H, m.id = root ∧ m.items = c.before ++ n.items ++ c.after
        ∧ ∃ old', Hole g s' retired (Ctx.top : Ctx PageId Bytes Stored H H) old' [m] m.items := by
  induction c with
  | top =>
    intro n old s s' root hs hrun
    obtain ⟨rfl, rfl⟩ := pure_eq_ok.mp hrun
    refine ⟨n, rfl, ?_, old, hs⟩
    show n.items = [] ++ n.items ++ []
    rw [nil_append, append_nil]
  | cons f up ih =>
    intro n old s s' root hs hrun
    have hrun : copySpine (f.id :: up.pathIds) old n.id s = .ok root s' := hrun
    unfold copySpine at hrun
    obtain ⟨newP, t, halloc, hrun⟩ := bind_eq_ok.mp hrun
    obtain ⟨_, v, hcow, hrun⟩ := bind_eq_ok.mp hrun
    obtain ⟨_, w, hfree, hrun⟩ := bind_eq_ok.mp hrun
    rw [modify_bind] at hrun
    -- the four moves: allocate, read, write, free
    obtain ⟨hlt, htt⟩ := hs.ledger_frame.allocate halloc
    unfold cowInternalRepointingChild at hcow
    obtain ⟨node, q, hread, hwrite⟩ := bind_eq_ok.mp hcow
    have hpaget : t.pager.page f.id = some (.internal (frameNode old f)) := by
      rw [htt.page not_mem_nil]
      exact hs.page_frame
    obtain ⟨rfl, hq⟩ := (readInternal_returns hpaget).sound _ _ hread
    have hlv := writePage_ledger (hlt.of_quiet hq) hwrite
    obtain ⟨hlw, htw⟩ := (hlv.perm (List.Perm.swap _ _ _)).free hfree
    have htouch : s.Touches [newP] w :=
      ((htt.trans (Session.Touches.of_quiet hq)).trans (writePage_touches hwrite)).trans htw
    obtain ⟨m, hm⟩ : ∃ m : PageTree _, m = (f.withId newP).fill n := ⟨_, rfl⟩
    have hid : m.id = newP := by rw [hm, Frame.fill_id, Frame.withId_id]
    have hitems : m.items = f.itemsBefore ++ n.items ++ f.itemsAfter := by
      rw [hm, Frame.fill_items, Frame.withId_itemsBefore, Frame.withId_itemsAfter]
    have hkids : m.kids.Perm ([n] ++ f.siblings) := by
      rw [hm, ← f.withId_siblings newP]
      exact (f.withId newP).fill_kids n
    have hnode : nodeOf m = (frameNode old f).repoint old n.id := by
      rw [repoint_frameNode n.id hs.siblings_ne, hm, nodeOf_fill, frameNode_withId]
    subst hid
    have hpage : w.pager.page m.id = some (.internal (nodeOf m)) := by
      obtain ⟨pager, rfl, hpage, -⟩ := writePage_eq_ok hwrite
      rw [htw.page not_mem_nil, hnode]
      exact hpage
    obtain ⟨m', hm', hitems', hhole⟩ := ih (hs.step_one htouch hkids hpage hlw hitems) hrun
    refine ⟨m', hm', ?_, hhole⟩
    rw [hitems', hitems]
    show _ = up.before ++ f.itemsBefore ++ n.items ++ (f.itemsAfter ++ up.after)
    simp only [append_assoc]

/-- **A split closes the hole it made.** -/
theorem propagateSplitUp_spec {g : Surroundings} {retired : List PageId}
    (c : Ctx PageId Bytes Stored h H) :
    ∀ {l r : PageTree h} {old : PageId} {sep : Bytes} {s s' : Session} {u : Unit},
      Hole g s retired c old [l, r] (l.items ++ .sep sep :: r.items) →
      propagateSplitUp c.pathIds old l.id sep r.id s = .ok u s' →
      ∃ (H' : Nat) (t : PageTree H'), Holds g s' retired [] t
        ∧ t.items = c.before ++ (l.items ++ .sep sep :: r.items) ++ c.after := by
  induction c with
  | top =>
    intro l r old sep s s' u hs hrun
    have hrun : propagateSplitUp [] old l.id sep r.id s = .ok u s' := hrun
    unfold propagateSplitUp at hrun
    obtain ⟨newRoot, t, halloc, hrun⟩ := bind_eq_ok.mp hrun
    obtain ⟨_, w, hwrite, hrun⟩ := bind_eq_ok.mp hrun
    obtain rfl := modify_eq_ok.mp hrun
    have hwrite := writeInternal_eq_ok hwrite
    obtain ⟨hlt, htt⟩ := Ledger.allocate hs.live_top.ledger halloc
    refine ⟨_, Node.branch newRoot l [(sep, r)], ?_, ?_⟩
    · refine hs.grow_root (htt.trans (writePage_touches hwrite)) ?_ (writePage_ledger hlt hwrite)
      obtain ⟨pager, rfl, hpage, -⟩ := writePage_eq_ok hwrite
      exact hpage
    · show l.items ++ (Item.sep sep :: r.items ++ []) = [] ++ (l.items ++ .sep sep :: r.items) ++ []
      rw [append_nil, append_nil, nil_append]
  | cons f up ih =>
    intro l r old sep s s' u hs hrun
    have hrun : propagateSplitUp (f.id :: up.pathIds) old l.id sep r.id s = .ok u s' := hrun
    unfold propagateSplitUp at hrun
    obtain ⟨node, q, hread, hrun⟩ := bind_eq_ok.mp hrun
    obtain ⟨rfl, hq⟩ := (readInternal_returns hs.page_frame).sound _ _ hread
    obtain ⟨newPage, t, halloc, hrun⟩ := bind_eq_ok.mp hrun
    obtain ⟨hlt, htt⟩ := (hs.ledger_frame.of_quiet hq).allocate halloc
    have htt := (Session.Touches.of_quiet hq).trans htt
    obtain ⟨hbefore, hafter⟩ := hs.sep_between
    rw [repoint_frameNode l.id hs.siblings_ne,
      upsert_frameNode newPage hbefore hafter, get_bind] at hrun
    obtain ⟨m, hm⟩ : ∃ m : PageTree _, m = f.fillPair newPage l sep r := ⟨_, rfl⟩
    have hid : m.id = newPage := by rw [hm, Frame.fillPair_id]
    have hitems : m.items = f.itemsBefore ++ (l.items ++ .sep sep :: r.items) ++ f.itemsAfter := by
      rw [hm, Frame.fillPair_items]
    have hkids : m.kids.Perm ([l, r] ++ f.siblings) := by
      rw [hm]
      exact f.fillPair_kids newPage l r sep
    have hwhole : (Ctx.cons f up).before ++ (l.items ++ .sep sep :: r.items)
        ++ (Ctx.cons f up).after = up.before ++ m.items ++ up.after := by
      rw [hitems]
      show up.before ++ f.itemsBefore ++ _ ++ (f.itemsAfter ++ up.after) = _
      simp only [append_assoc]
    rw [← hm] at hrun
    subst hid
    split_ifs at hrun with hfits
    · obtain ⟨_, v, hwrite, hrun⟩ := bind_eq_ok.mp hrun
      obtain ⟨_, w, hfree, hrun⟩ := bind_eq_ok.mp hrun
      rw [modify_bind] at hrun
      obtain ⟨root, x, hspine, hrun⟩ := bind_eq_ok.mp hrun
      obtain rfl := modify_eq_ok.mp hrun
      have hwrite := writeInternal_eq_ok hwrite
      obtain ⟨hlw, htw⟩ := ((writePage_ledger hlt hwrite).perm (List.Perm.swap _ _ _)).free hfree
      have hpage : w.pager.page m.id = some (.internal (nodeOf m)) := by
        obtain ⟨pager, rfl, hpage, -⟩ := writePage_eq_ok hwrite
        rw [htw.page not_mem_nil]
        exact hpage
      have hstep := hs.step_one ((htt.trans (writePage_touches hwrite)).trans htw) hkids hpage hlw
        hitems
      obtain ⟨m', rfl, hitems', old', hhole⟩ := copySpine_spec up hstep hspine
      refine ⟨_, m', hhole.fill_root, ?_⟩
      rw [hitems', hwhole]
    · obtain ⟨id, first, rest, hbranch⟩ := m.exists_branch
      cases hsplit : (nodeOf m).split with
      | none =>
        rw [hsplit] at hrun
        exact absurd (throw_eq_ok.mp hrun) not_false
      | some halves =>
        obtain ⟨left, right, promoted⟩ := halves
        rw [hsplit] at hrun
        subst hbranch
        obtain ⟨a, n, b, rfl, rfl, rfl⟩ := split_nodeOf hsplit
        obtain ⟨rightPage, v, halloc', hrun⟩ := bind_eq_ok.mp hrun
        obtain ⟨_, w, hwrite, hrun⟩ := bind_eq_ok.mp hrun
        obtain ⟨_, x, hwrite', hrun⟩ := bind_eq_ok.mp hrun
        obtain ⟨_, y, hfree, hrun⟩ := bind_eq_ok.mp hrun
        rw [modify_bind] at hrun
        have hwrite := writeInternal_eq_ok hwrite
        have hwrite' := writeInternal_eq_ok hwrite'
        obtain ⟨hlv, htv⟩ := hlt.allocate halloc'
        have hlx := writePage_ledger (writePage_ledger hlv hwrite) hwrite'
        have hne : id ≠ rightPage := by
          rintro rfl
          exact (nodup_cons.mp hlv.nodup).1 mem_cons_self
        have hperm := (reverse_perm [rightPage, id, f.id]).append_right
          (Hole.outside g retired f up [l, r] (l.items ++ .sep sep :: r.items))
        obtain ⟨hly, hty⟩ := Ledger.free (hlx.perm hperm) hfree
        have htouch : s.Touches [id, rightPage] y :=
          (((htt.trans htv).trans (writePage_touches hwrite)).trans
            (writePage_touches hwrite')).trans hty
        have hpage : y.pager.page id = some (.internal ⟨first.id, Node.links a⟩) := by
          obtain ⟨pager, rfl, hpage, -⟩ := writePage_eq_ok hwrite
          obtain ⟨pager', rfl, -, hsame⟩ := writePage_eq_ok hwrite'
          rw [hty.page not_mem_nil]
          exact (hsame id hne).trans hpage
        have hpage' : y.pager.page rightPage = some (.internal ⟨n.id, Node.links b⟩) := by
          obtain ⟨pager', rfl, hpage', -⟩ := writePage_eq_ok hwrite'
          rw [hty.page not_mem_nil]
          exact hpage'
        have hkids' : ((Node.branch id first a).kids ++ (Node.branch rightPage n b).kids).Perm
            ([l, r] ++ f.siblings) := by
          refine List.Perm.trans (List.Perm.of_eq ?_) hkids
          show (first :: a.map Prod.snd) ++ (n :: b.map Prod.snd)
            = first :: (a ++ (promoted, n) :: b).map Prod.snd
          rw [map_append]
          rfl
        have hitems' : (Node.branch id first a).items ++ .sep promoted
            :: (Node.branch rightPage n b).items
            = (Node.branch id first (a ++ (promoted, n) :: b)).items := by
          show first.items ++ a.flatMap (fun e => Item.sep e.1 :: e.2.items)
              ++ Item.sep promoted :: (n.items ++ b.flatMap fun e => Item.sep e.1 :: e.2.items)
            = first.items ++ (a ++ (promoted, n) :: b).flatMap fun e => Item.sep e.1 :: e.2.items
          rw [flatMap_append, flatMap_cons]
          simp only [append_assoc, cons_append]
        have hstep := hs.step_two (Node.branch id first a) (Node.branch rightPage n b) promoted
          htouch hkids' hpage hpage' hly (hitems'.trans hitems)
        obtain ⟨H', t', hholds, ht'⟩ := ih hstep hrun
        refine ⟨H', t', hholds, ?_⟩
        rw [ht', hwhole, hitems']

end Pagedb
