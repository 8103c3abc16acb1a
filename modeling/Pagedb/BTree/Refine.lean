/-
  Pagedb.BTree.Refine — the tree refines a finite map.

  `Image` is a tree of any height, or no tree yet.  `Carries` ties a session to
  the image it holds, `Readable` is the part of it a lookup needs.

  Main results:
    * `treePut_spec`, `treeDelete_spec`, `materializeDirty_spec` — each call
      that returns leaves a session that carries the updated map.
    * `treeGet_returns` — a lookup returns what the map holds.
    * `tree_refines_map` — so for every run of calls, and for a tree opened
      again on the flushed pages.
-/
import Pagedb.BTree.Flush

namespace Pagedb

open Lib List

/-! ## §1. Images -/

/-- A tree of any height, or none. -/
inductive Image where
  | empty
  | tree {h : Nat} (t : PageTree h)

namespace Image

/-- The root page, 0 for no tree. -/
def root : Image → PageId
  | empty => 0
  | tree t => t.id

/-- The pages of the nodes. -/
def ids : Image → List PageId
  | empty => []
  | tree t => t.ids

/-- The read-out. -/
def items : Image → List (Item Bytes Stored)
  | empty => []
  | tree t => t.items

/-- The leaves with their parent paths. -/
def leafPaths : Image → List (PageId × List PageId)
  | empty => []
  | tree t => t.leafPaths

/-- The nodes with their pages. -/
def cells : Image → List (PageId × Cell PageId Bytes Stored)
  | empty => []
  | tree t => t.cells

/-- The map an image stands for. -/
def map (i : Image) : Bytes → Option Bytes := contents i.items

/-- Every page of an image, overflow chains included. -/
def pages (i : Image) : List PageId := i.ids ++ valuePages i.items

end Image

/-- The session holds the image, and its books are right. -/
structure Carries (g : Surroundings) (s : Session) (retired : List PageId) (i : Image) : Prop where
  live : Live g s retired [] i.ids i.items i.leafPaths
  rep : ∀ e ∈ i.cells, s.Shows e.1 e.2
  root : i.root = s.rootPageId

/-- The session shows the nodes of the image, whatever its chains are like. -/
structure Outline (s : Session) (i : Image) : Prop where
  rep : ∀ e ∈ i.cells, s.Shows e.1 e.2
  ordered : InOrder i.items
  nodup : i.ids.Nodup
  zero : 0 ∉ i.ids
  paged : s.DirtyPaged
  root : i.root = s.rootPageId

/-- A lookup in the session sees the image. -/
structure Readable (s : Session) (i : Image) : Prop where
  rep : ∀ e ∈ i.cells, s.Shows e.1 e.2
  ordered : InOrder i.items
  nodup : i.ids.Nodup
  zero : 0 ∉ i.ids
  paged : s.DirtyPaged
  values : ∀ r ∈ recordsOf i.items, r.2.Held s.pager ∧ r.2.pages.Nodup ∧ 0 ∉ r.2.pages
  root : i.root = s.rootPageId

variable {g : Surroundings} {s s' : Session} {retired : List PageId} {i : Image} {h : Nat}
  {t : PageTree h}

namespace Carries

theorem holds (hs : Carries g s retired (.tree t)) : Holds g s retired [] t :=
  ⟨hs.live, hs.rep, hs.root⟩

theorem of_holds (hs : Holds g s retired [] t) : Carries g s retired (.tree t) :=
  ⟨hs.live, hs.rep, hs.root⟩

theorem readable (hs : Carries g s retired i) : Readable s i where
  rep := hs.rep
  ordered := hs.live.ordered
  nodup := hs.live.ids_nodup
  zero := hs.live.ids_zero
  paged := hs.live.caches.paged
  values := fun _ hr => hs.live.record_pages hr
  root := hs.root

theorem root_eq_zero (hs : Carries g s retired i) : s.rootPageId = 0 ↔ i = .empty := by
  rw [← hs.root]
  cases i with
  | empty => exact ⟨fun _ => rfl, fun _ => rfl⟩
  | tree t =>
    refine ⟨fun hroot => ?_, nofun⟩
    have hroot : t.id = 0 := hroot
    exact absurd (hroot ▸ t.id_mem_ids) hs.live.ids_zero

end Carries

/-! ## §2. Lookup -/

namespace Outline

variable (hr : Outline s (.tree t))

include hr

/-- The pager holds more pages than the tree is high. -/
theorem height_lt : h < s.pager.pageCount + 1 := by
  refine Nat.lt_succ_of_le (t.height_le.trans ?_)
  rw [← length_map (f := Prod.fst)]
  refine Pager.length_le_pageCount ?_ fun p hp => ?_
  · have hnodup : (t.cells.map Prod.fst).Nodup := by
      rw [Node.cells_map_fst]
      exact hr.nodup
    exact hnodup.sublist (filter_sublist.map _)
  · obtain ⟨⟨q, c⟩, he, rfl⟩ := mem_map.mp hp
    obtain ⟨hmem, hbranch⟩ := mem_filter.mp he
    cases c with
    | leaf records => cases hbranch
    | branch first rest =>
      rw [(Session.page_of_look_internal (hr.rep _ hmem)).1]
      rfl

/-- **The descent for a key ends at the leaf that is cut by it.** -/
theorem descend_returns (k : Bytes) :
    Returns Session.Clear (descend fun node => node.childFor k) s fun r s' => s.Quiet s' ∧
      ∃ (c : Ctx PageId Bytes Stored 0 h) (id : PageId) (left right : List (Bytes × Stored))
        (old : Option Stored), t = c.plug (.leaf id (around left k old right))
          ∧ Cut c k left right ∧ r.1 = c.pathIds.reverse ++ [id]
          ∧ r.2.records = leafRecords (around left k old right) := by
  unfold descend
  refine Returns.get ?_
  rw [← hr.root]
  refine (descendFrom_returns (G := fun n => InOrder n.items)
    (P := fun f => (∀ x ∈ f.itemsBefore, x.Before k) ∧ ∀ x ∈ f.itemsAfter, x.After k)
    (fun id first rest hord => ?_) t _ [] s hr.rep hr.ordered hr.nodup hr.zero hr.paged
    hr.height_lt).weaken ?_
  · obtain ⟨f, n, hfill, hid, hn, hb, ha⟩ := exists_frame id first rest k hord
    refine ⟨f, n, hfill, hid, ?_, ?_, hb, ha⟩
    · rw [hn, Internal.childFor_eq k (links_sorted hord)]
    · rw [hfill, Frame.fill_items] at hord
      exact (pairwise_append.mp (pairwise_append.mp hord).1).2.1
  · rintro r s' ⟨hq, c, id, records, rfl, hc, hpath, hrecords⟩
    obtain ⟨hb, ha⟩ := Ctx.Forall.items hc
    obtain ⟨left, old, right, rfl, hcut⟩ := exists_cut hr.ordered hb ha
    exact ⟨hq, c, id, left, right, old, rfl, hcut, hpath, hrecords⟩

theorem image_root : Image.root (.tree t) ≠ 0 := by
  intro h0
  have h0 : t.id = 0 := h0
  exact hr.zero (h0 ▸ t.id_mem_ids)

theorem root_ne_zero : s.rootPageId ≠ 0 := hr.root ▸ hr.image_root

end Outline

namespace Readable

theorem outline (hr : Readable s i) : Outline s i :=
  ⟨hr.rep, hr.ordered, hr.nodup, hr.zero, hr.paged, hr.root⟩

theorem height_lt (hr : Readable s (.tree t)) : h < s.pager.pageCount + 1 := hr.outline.height_lt

theorem root_ne_zero (hr : Readable s (.tree t)) : s.rootPageId ≠ 0 := hr.outline.root_ne_zero

/-- **A lookup returns what the image holds**, and returns if no await fails. -/
theorem treeGet_returns (hr : Readable s i) (k : Bytes) :
    Returns Session.Clear (treeGet k) s fun r s' => r = i.map k ∧ s.Quiet s' := by
  unfold treeGet
  refine Returns.get ?_
  rw [← hr.root]
  cases i with
  | empty => exact Returns.pure ⟨rfl, Session.Quiet.refl s⟩
  | tree t =>
    rw [hr.root, if_neg hr.root_ne_zero]
    refine (hr.outline.descend_returns k).bind ?_
    rintro r u ⟨hq, c, id, left, right, old, rfl, hcut, -, hrecords⟩
    show Returns Session.Clear (resolveValue (r.2.get k)) u _
    rw [Leaf.get_around hcut.around hrecords]
    refine (resolveValue_returns (fun w hw => ?_)).weaken ?_
    · have hmem : (k, w) ∈ recordsOf (c.plug (.leaf id (around left k old right))).items := by
        rw [Cut.records_eq, Option.mem_def.mp hw]
        exact mem_append_left _ mem_concat_self
      obtain ⟨hheld, hpages⟩ := hr.values _ hmem
      obtain ⟨faults, rfl⟩ := hq
      exact ⟨hheld.congr fun _ _ => rfl, hpages⟩
    · rintro v w ⟨rfl, hq'⟩
      exact ⟨(hcut.contents_self id old).symm, hq.trans hq'⟩

end Readable

/-! ## §3. Updates -/

variable {u : Unit} {k : Bytes} {hash : HashOrder}

theorem Holds.readable {held : List PageId} (hs : Holds g s retired held t) :
    Readable s (.tree t) :=
  ⟨hs.rep, hs.live.ordered, hs.live.ids_nodup, hs.live.ids_zero, hs.live.caches.paged,
    fun _ hr => hs.live.record_pages hr, hs.root⟩

theorem Carries.marked (hs : Carries g s retired i) (last : Option Bytes)
    (path : Option (List PageId)) :
    Carries g { s with appendLastKey := last, appendCachedPath := path } retired i :=
  ⟨hs.live.marked s.rootPageId last path s.drains, hs.rep, hs.root⟩

theorem invalidateAppendState_spec (hs : Carries g s retired i)
    (hrun : invalidateAppendState s = .ok u s') : Carries g s' retired i := by
  obtain rfl := modify_eq_ok.mp hrun
  exact hs.marked none none

/-- The descent of an update. -/
theorem Outline.path_returns (ho : Outline s (.tree t)) (k : Bytes) :
    Returns Session.Clear (pathToLeafForKey k) s fun path s' => s.Quiet s' ∧
      ∃ (c : Ctx PageId Bytes Stored 0 h) (id : PageId) (left right : List (Bytes × Stored))
        (old : Option Stored), t = c.plug (.leaf id (around left k old right)) ∧ Cut c k left right
          ∧ path = c.pathIds.reverse ++ [id] := by
  refine (ho.descend_returns k).bind ?_
  rintro ⟨path, leaf⟩ u ⟨hq, c, id, left, right, old, ht, hcut, hpath, -⟩
  exact Returns.pure ⟨hq, c, id, left, right, old, ht, hcut, hpath⟩

/-- The first record makes a tree of one leaf. -/
theorem putFirst_spec {v : Stored} (hs : Live g s retired v.pages [] [] []) (hheld : v.Held s.pager)
    (hrun : putFirst k v.leafValue s = .ok u s') :
    ∃ t : PageTree 0, Holds g s' retired [] t ∧ t.items = [.entry k v] := by
  unfold putFirst at hrun
  obtain ⟨root, w, halloc, hrun⟩ := bind_eq_ok.mp hrun
  obtain ⟨_, x, hwrite, hrun⟩ := bind_eq_ok.mp hrun
  obtain rfl := modify_eq_ok.mp hrun
  obtain ⟨hl, ht⟩ := hs.ledger.allocate halloc
  have hlive : Live g w retired (root :: v.pages) [] [] [] := hs.touch ht hl (nil_subset _)
  have hwrite := writeLeaf_eq_ok hwrite
  have hlx := writePage_ledger hlive.ledger hwrite
  have hx := hlive.touch (writePage_touches hwrite) hlx
    (fun p hp => mem_singleton.mp hp ▸ mem_cons_self)
  obtain ⟨pager, rfl, hpage, hsame⟩ := writePage_eq_ok hwrite
  have hroot : root ∉ v.pages := fun hmem =>
    (nodup_cons.mp hlx.nodup).1 (mem_append_left _ hmem)
  have hc := hx.caches
  refine ⟨.leaf root [(k, v)], ⟨⟨?_, ?_, ?_, ?_⟩, ?_, rfl⟩, rfl⟩
  · exact ⟨fun p hp => absurd (hc.fresh_mem p hp) not_mem_nil,
      fun p hp => absurd (hc.dirty_mem p hp) not_mem_nil, hc.apart, hc.paged, hc.path_keys,
      fun p path hp => absurd (hc.path_mem p path hp) not_mem_nil, hc.scheduled⟩
  · exact pairwise_singleton _ _
  · intro r hr
    rw [mem_singleton.mp (show r ∈ [(k, v)] from hr)]
    refine (ht.held hheld fun p _ => not_mem_nil).congr fun p hp => hsame p ?_
    rintro rfl
    exact hroot hp
  · refine Ledger.perm ⟨hlx.four, hlx.law, hlx.drawn⟩ ?_
    show ([root] ++ ((v.pages ++ []) ++ (retired ++ g.others))).Perm
      ((root :: v.pages) ++ (retired ++ g.others))
    rw [append_nil, ← append_assoc]
    exact List.Perm.refl _
  · intro e he
    rw [mem_singleton.mp he]
    show Session.look _ root = _
    rw [Session.look_page, show Pager.page _ root = _ from hpage]
    · rfl
    · exact AList.lookup_eq_none.mpr fun hp => absurd (hc.fresh_mem root hp) not_mem_nil
    · exact AList.lookup_eq_none.mpr fun hp => absurd (hc.dirty_mem root hp) not_mem_nil

theorem validateInsertRecordFits_eq_ok {v : Bytes}
    (hrun : validateInsertRecordFits k v s = .ok u s') : s' = s := by
  unfold validateInsertRecordFits at hrun
  rw [get_bind] at hrun
  split at hrun
  · exact (pure_eq_ok.mp hrun).2.symm
  · exact absurd (throw_eq_ok.mp hrun) not_false

/-- The map of a tree with its first record. -/
theorem map_of_first {H : Nat} {t : PageTree H} {v : Stored} (hitems : t.items = [.entry k v]) :
    Image.map (.tree t) = Function.update (Image.map .empty) k (some v.bytes) := by
  funext j
  show contents t.items j = _
  rw [hitems]
  unfold contents find
  by_cases hj : j = k
  · rw [hj, Function.update_self]
    simp [recordsOf, Item.record?]
  · rw [Function.update_of_ne hj]
    simp [recordsOf, Item.record?, Ne.symm hj, Image.map, contents, find, Image.items]

/-- **`put` updates the map at its key.** -/
theorem treePut_spec {v : Bytes} (hs : Carries g s retired i) (hrun : treePut k v s = .ok u s') :
    ∃ i' : Image, Carries g s' retired i' ∧ i'.map = Function.update i.map k (some v) := by
  unfold treePut at hrun
  obtain ⟨_, s₁, hinv, hrun₁⟩ := bind_eq_ok.mp hrun
  obtain ⟨_, s₂, hvalid, hrun₂⟩ := bind_eq_ok.mp hrun₁
  rw [validateInsertRecordFits_eq_ok hvalid] at hrun₂
  obtain ⟨lv, s₃, hvalue, hrun⟩ := bind_eq_ok.mp hrun₂
  have h₁ := invalidateAppendState_spec hs hinv
  obtain ⟨v, rfl, rfl, hheld, hl₃, ht₃⟩ := leafValueFor_spec h₁.live.ledger hvalue
  rw [get_bind] at hrun
  have hroot : s₃.rootPageId = i.root := ht₃.root.trans h₁.root.symm
  have hlive : Live g s₃ retired v.pages i.ids i.items i.leafPaths :=
    h₁.live.touch ht₃ hl₃ (List.Subset.refl _)
  cases i with
  | empty =>
    rw [if_pos (show s₃.rootPageId = 0 from hroot)] at hrun
    obtain ⟨t, ht, hitems⟩ := putFirst_spec hlive hheld hrun
    exact ⟨.tree t, .of_holds ht, map_of_first hitems⟩
  | tree t =>
    have hholds : Holds g s₃ retired v.pages t :=
      h₁.holds.touch ht₃ hl₃ (List.Subset.refl _)
    rw [if_neg hholds.readable.root_ne_zero] at hrun
    obtain ⟨path, s₄, hpath, hrun⟩ := bind_eq_ok.mp hrun
    obtain ⟨split, s₅, hput, hrun⟩ := bind_eq_ok.mp hrun
    obtain ⟨-, rfl⟩ := pure_eq_ok.mp hrun
    obtain ⟨hq, c, id, left, right, old, rfl, hcut, rfl⟩ :=
      (hholds.readable.outline.path_returns k).sound _ _ hpath
    have hheld₄ : v.Held s₄.pager := by
      obtain ⟨faults, rfl⟩ := hq
      exact hheld.congr fun _ _ => rfl
    obtain ⟨H', t', ht', hcontents⟩ := putAtPath_spec (hholds.quiet hq) hcut hheld₄ hput
    exact ⟨.tree t', .of_holds ht', hcontents⟩

/-- **`delete` clears the map at its key**, and says whether it held a record. -/
theorem treeDelete_spec {found : Bool} (hs : Carries g s retired i)
    (hrun : treeDelete k s = .ok found s') :
    ∃ i' : Image, Carries g s' retired i' ∧ i'.map = Function.update i.map k none
      ∧ found = (i.map k).isSome := by
  unfold treeDelete at hrun
  obtain ⟨_, s₁, hinv, hrun⟩ := bind_eq_ok.mp hrun
  have h₁ := invalidateAppendState_spec hs hinv
  rw [get_bind, ← h₁.root] at hrun
  cases i with
  | empty =>
    obtain ⟨rfl, rfl⟩ := pure_eq_ok.mp hrun
    refine ⟨.empty, h₁, ?_, rfl⟩
    exact (Function.update_eq_self k (Image.map .empty)).symm
  | tree t =>
    rw [if_neg h₁.readable.outline.image_root] at hrun
    obtain ⟨path, s₂, hpath, hrun⟩ := bind_eq_ok.mp hrun
    obtain ⟨hq, c, id, left, right, old, rfl, hcut, rfl⟩ :=
      (h₁.readable.outline.path_returns k).sound _ _ hpath
    obtain ⟨hholds, rfl⟩ := deleteAtPath_spec (h₁.holds.quiet hq) hcut hrun
    refine ⟨.tree _, .of_holds hholds, hcut.contents_eq id old none, ?_⟩
    have hself := hcut.contents_self id old
    show old.isSome = (contents (c.plug (.leaf id (around left k old right))).items k).isSome
    rw [hself, Option.isSome_map]

/-- **A flush keeps the map**, and leaves all of it in the pager. -/
theorem materializeDirty_spec (hs : Carries g s retired i)
    (hrun : materializeDirty hash s = .ok u s') :
    ∃ (i' : Image) (retired' : List PageId), Carries g s' retired' i' ∧ i'.map = i.map
      ∧ s'.freshLeaves = ∅ ∧ s'.dirtyLeaves = ∅ := by
  unfold materializeDirty at hrun
  cases i with
  | tree t =>
    obtain ⟨t', retired', ht', hitems, hfresh, hdirty⟩ := flushDirtyLeaves_spec hs.holds hrun
    refine ⟨.tree t', retired', .of_holds ht', ?_, hfresh, hdirty⟩
    show contents t'.items = contents t.items
    rw [hitems]
  | empty =>
    -- nothing is cached for a tree that is not there
    have hc := hs.live.caches
    have hfresh : s.freshLeaves = ∅ := Table.eq_empty_of_notMem fun p hp =>
      absurd (hc.fresh_mem p hp) not_mem_nil
    have hdirty : s.dirtyLeaves = ∅ := Table.eq_empty_of_notMem fun p hp =>
      absurd (hc.dirty_mem p hp) not_mem_nil
    have hnone : hash.order s.drains (∅ : Table PageId Leaf).toList = [] :=
      perm_nil.mp (hash.perm _ _)
    unfold flushDirtyLeaves drainFreshLeaves at hrun
    rw [bind_assoc, get_bind, bind_assoc, set_bind, pure_bind, hfresh, hnone] at hrun
    obtain ⟨_, w, hwrite, hrun⟩ := bind_eq_ok.mp hrun
    obtain ⟨-, rfl⟩ := pure_eq_ok.mp hwrite
    rw [get_bind, if_pos (by rw [show s.dirtyLeaves = ∅ from hdirty]; rfl)] at hrun
    obtain ⟨-, rfl⟩ := pure_eq_ok.mp hrun
    have hl := hs.live.ledger
    refine ⟨.empty, retired, ⟨⟨⟨?_, hc.dirty_mem, ?_, hc.paged, hc.path_keys, hc.path_mem,
      hc.scheduled⟩, hs.live.ordered, hs.live.values, ⟨hl.four, hl.law, hl.drawn⟩⟩,
      nofun, hs.root⟩, rfl, rfl, hdirty⟩
    · exact fun p hp => absurd hp (AList.notMem_empty _)
    · exact fun p hp => absurd hp (AList.notMem_empty _)

/-! ## §4. Runs -/

/-- The calls of a run. -/
inductive TreeOp where
  | put (key value : Bytes)
  | delete (key : Bytes)
  | materialize
  deriving DecidableEq, Repr

/-- A call on the tree. -/
def TreeOp.run (hash : HashOrder) : TreeOp → TreeM Unit
  | put key value => treePut key value
  | delete key => do
    let _ ← treeDelete key
    pure ()
  | materialize => materializeDirty hash

/-- The calls in order; the run returns if every call does. -/
def runOps (hash : HashOrder) : List TreeOp → TreeM Unit
  | [] => pure ()
  | op :: ops => do
    op.run hash
    runOps hash ops

/-- The same call on a finite map. -/
def TreeOp.apply : TreeOp → Table Bytes Bytes → Table Bytes Bytes
  | put key value, m => m.insert key value
  | delete key, m => m.erase key
  | materialize, m => m

/-- The same calls on a finite map. -/
def applyOps (ops : List TreeOp) (m : Table Bytes Bytes) : Table Bytes Bytes :=
  ops.foldl (fun m op => op.apply m) m

/-- A tree opened on a root over the pages of a session, with its own allocator
    position and page source. -/
def Session.reopen (s : Session) (root next : PageId) (threshold : Option PageId)
    (cache consumed : List PageId) : Session :=
  { BTree.open s.pageSize root next threshold with pager := s.pager, cache, consumed }

/-- The pages a page source may hand out: distinct, allocated, not reserved. -/
structure SourceOk (next : PageId) (cache : List PageId) : Prop where
  nodup : cache.Nodup
  four : ∀ p ∈ cache, 4 ≤ p
  below : ∀ p ∈ cache, p < next

/-- One call moves the map as it moves the finite map. -/
theorem TreeOp.run_spec {op : TreeOp} {m : Table Bytes Bytes} (hs : Carries g s retired i)
    (hm : i.map = m.lookup) (hrun : op.run hash s = .ok u s') :
    ∃ (i' : Image) (retired' : List PageId), Carries g s' retired' i'
      ∧ i'.map = (op.apply m).lookup := by
  cases op with
  | put key value =>
    obtain ⟨i', hs', hmap⟩ := treePut_spec hs hrun
    refine ⟨i', retired, hs', ?_⟩
    rw [hmap, hm]
    funext k
    by_cases hk : k = key
    · subst hk
      rw [Function.update_self]
      exact (AList.lookup_insert m).symm
    · rw [Function.update_of_ne hk]
      exact (AList.lookup_insert_ne hk).symm
  | delete key =>
    obtain ⟨found, w, hdelete, hrun⟩ := bind_eq_ok.mp hrun
    obtain ⟨-, rfl⟩ := pure_eq_ok.mp hrun
    obtain ⟨i', hs', hmap, -⟩ := treeDelete_spec hs hdelete
    refine ⟨i', retired, hs', ?_⟩
    rw [hmap, hm]
    funext k
    by_cases hk : k = key
    · subst hk
      rw [Function.update_self]
      exact (AList.lookup_erase k m).symm
    · rw [Function.update_of_ne hk]
      exact (AList.lookup_erase_ne hk).symm
  | materialize =>
    obtain ⟨i', retired', hs', hmap, -, -⟩ := materializeDirty_spec hs hrun
    exact ⟨i', retired', hs', hmap.trans hm⟩

/-- A whole run does. -/
theorem runOps_spec (ops : List TreeOp) :
    ∀ {s s' : Session} {retired : List PageId} {i : Image} {m : Table Bytes Bytes} {u : Unit},
      Carries g s retired i → i.map = m.lookup → runOps hash ops s = .ok u s' →
      ∃ (i' : Image) (retired' : List PageId), Carries g s' retired' i'
        ∧ i'.map = (applyOps ops m).lookup := by
  induction ops with
  | nil =>
    intro s s' retired i m u hs hm hrun
    obtain ⟨-, rfl⟩ := pure_eq_ok.mp hrun
    exact ⟨i, retired, hs, hm⟩
  | cons op ops ih =>
    intro s s' retired i m u hs hm hrun
    obtain ⟨_, w, hop, hrun⟩ := bind_eq_ok.mp hrun
    obtain ⟨i', retired', hs', hm'⟩ := op.run_spec hs hm hop
    exact ih hs' hm' hrun

/-- An empty tree over any pages. -/
theorem carries_empty {next : PageId} {threshold : Option PageId} {cache consumed : List PageId}
    (hsource : SourceOk (max next 4) cache) :
    ∃ g, Carries g (s.reopen 0 next threshold cache consumed) [] .empty := by
  refine ⟨⟨consumed ++ cache, (List.range' 4 (max next 4 - 4)).filter fun p => !cache.contains p⟩,
    ⟨⟨fun p hp => absurd hp (AList.notMem_empty _), fun p hp => absurd hp (AList.notMem_empty _),
      fun p _ => AList.notMem_empty _, fun p hp => absurd hp (AList.notMem_empty _),
      fun p => Iff.rfl, fun p path hp => (by cases hp), List.Perm.refl _⟩,
      List.Pairwise.nil, nofun, ⟨le_max_right _ _, ?_, ?_⟩⟩,
    nofun, rfl⟩
  · show ((List.range' 4 (max next 4 - 4)).filter (fun p => !cache.contains p) ++ cache).Perm
      (List.range' 4 (max next 4 - 4))
    refine (perm_ext_iff_of_nodup ?_ nodup_range').mpr fun p => ?_
    · refine nodup_append.mpr ⟨(nodup_range').filter _, hsource.nodup, ?_⟩
      rintro p hp q hq rfl
      have := (mem_filter.mp hp).2
      rw [Bool.not_eq_true', contains_eq_mem, decide_eq_false_iff_not] at this
      exact this hq
    · rw [mem_append, mem_filter, mem_range'_1, Bool.not_eq_true',
        contains_eq_mem, decide_eq_false_iff_not]
      constructor
      · rintro (hp | hp)
        · exact hp.1
        · have h4 := hsource.four p hp
          have hlt := hsource.below p hp
          unfold PageId at *
          omega
      · intro hp
        by_cases hmem : p ∈ cache
        · exact Or.inr hmem
        · exact Or.inl ⟨hp, hmem⟩
  · exact List.Perm.refl _

/-- A flushed tree can be opened again from its pages alone. -/
theorem Carries.reopen (hs : Carries g s retired i) (hfresh : s.freshLeaves = ∅)
    (hdirty : s.dirtyLeaves = ∅) (next : PageId) (threshold : Option PageId)
    (cache consumed : List PageId) :
    Readable (s.reopen s.rootPageId next threshold cache consumed) i := by
  have hr := hs.readable
  refine ⟨fun e he => ?_, hr.ordered, hr.nodup, hr.zero,
    fun p hp => absurd hp (AList.notMem_empty _), hr.values, hr.root⟩
  have hlook : (s.reopen s.rootPageId next threshold cache consumed).look e.1 = s.look e.1 := by
    rw [Session.look_page (s := s) (by rw [hfresh]; rfl) (by rw [hdirty]; rfl)]
    rfl
  have hshow := hr.rep e he
  obtain ⟨p, c⟩ := e
  cases c <;> exact hlook.trans hshow

/-- **The tree refines a finite map.**  After any calls that all return, from an
    empty tree over any pages, a lookup gives what the same calls leave in a
    finite map; and after one more flush so does a tree opened on the root over
    the pager alone.  A lookup that no await fails returns. -/
theorem tree_refines_map (hash : HashOrder) (base : Session) (next : PageId)
    (threshold : Option PageId) (cache consumed : List PageId)
    (hsource : SourceOk (max next 4) cache) (ops : List TreeOp) (s : Session)
    (hrun : runOps hash ops (base.reopen 0 next threshold cache consumed) = .ok () s) (k : Bytes) :
    Returns Session.Clear (treeGet k) s (fun v _ => v = (applyOps ops ∅).lookup k)
      ∧ ∀ flushed, materializeDirty hash s = .ok () flushed →
        ∀ (next' : PageId) (threshold' : Option PageId) (cache' consumed' : List PageId),
          Returns Session.Clear (treeGet k)
            (flushed.reopen flushed.rootPageId next' threshold' cache' consumed')
            (fun v _ => v = (applyOps ops ∅).lookup k) := by
  obtain ⟨g, hempty⟩ := carries_empty (s := base) hsource
  obtain ⟨i, retired, hs, hmap⟩ := runOps_spec (m := ∅) ops hempty (funext fun _ => rfl) hrun
  constructor
  · refine (hs.readable.treeGet_returns k).weaken ?_
    rintro v _ ⟨rfl, -⟩
    rw [hmap]
  · intro flushed hflush next' threshold' cache' consumed'
    obtain ⟨i', retired', hs', hmap', hfresh, hdirty⟩ := materializeDirty_spec hs hflush
    refine ((hs'.reopen hfresh hdirty next' threshold' cache' consumed').treeGet_returns k).weaken ?_
    rintro v _ ⟨rfl, -⟩
    rw [hmap', hmap]

/-- A run with a flush between its calls, over a source with one free page. -/
theorem tree_refines_map_flushed_between :
    let base : Session := { BTree.open 4096 0 4 none with
      pager := ⟨[], [], [], []⟩, cache := [], consumed := [] }
    let ops : List TreeOp := [.put [1] [2], .materialize, .put [3] [4], .delete [1], .materialize]
    ∃ s, runOps HashOrder.stable ops (base.reopen 0 7 (some 7) [5] []) = .ok () s
      ∧ Returns Session.Clear (treeGet [3]) s (fun v _ => v = some [4]) := by
  intro base ops
  obtain ⟨_, s, hrun⟩ := exists_ok_of_isOk
    (r := runOps HashOrder.stable ops (base.reopen 0 7 (some 7) [5] [])) (by decide +kernel)
  refine ⟨s, hrun, ?_⟩
  exact (tree_refines_map HashOrder.stable base 7 (some 7) [5] []
    ⟨by decide, by decide, by decide⟩ ops s hrun [3]).1

end Pagedb
