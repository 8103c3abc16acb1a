/-
  Pagedb.BTree.Insert — insert and delete keep the tree (`put_at_path`,
  `delete_at_path`).

  Both bring the leaf of the key into a cache, change one record there, and
  give the pages of the value that left back.  A leaf that no longer fits is
  cut in two, with a new separator in front of its right half.
-/
import Pagedb.BTree.Split

namespace Pagedb

open Lib List

variable {H : Nat} {g : Surroundings} {s s' : Session} {retired held held' : List PageId}
  {c : Ctx PageId Bytes Stored 0 H} {id : PageId} {records records' : List (Bytes × Stored)}

/-! ## §1. The leaf in its cache -/

/-- The leaf at `id` is cached, among the fresh leaves or the dirty ones. -/
def Session.CachedAt (s : Session) (id : PageId) : Bool → Leaf → Prop
  | true, leaf => s.freshLeaves.lookup id = some leaf
  | false, leaf => s.freshLeaves.lookup id = none ∧ s.dirtyLeaves.lookup id = some leaf

variable {fresh monotonic : Bool} {leaf leaf' l r : Leaf} {u : Unit} {k sep : Bytes}

theorem cachedLeaf_eq_ok (h : cachedLeaf id fresh s = .ok leaf s') :
    s = s' ∧ (if fresh then s.freshLeaves.lookup id else s.dirtyLeaves.lookup id) = some leaf := by
  unfold cachedLeaf at h
  rw [get_bind] at h
  cases hl : if fresh then s.freshLeaves.lookup id else s.dirtyLeaves.lookup id with
  | none =>
    rw [hl] at h
    exact absurd (throw_eq_ok.mp h) not_false
  | some l =>
    rw [hl] at h
    obtain ⟨rfl, rfl⟩ := pure_eq_ok.mp h
    exact ⟨rfl, rfl⟩

theorem Holds.look_leaf (hs : Holds g s retired held (c.plug (.leaf id records))) :
    s.look id = some (.inl (leafRecords records)) := by
  refine hs.rep (id, .leaf records) ((c.plug_cells _).mem_iff.mpr ?_)
  exact mem_append_left _ (mem_singleton_self _)

theorem leaf_mem_ids (c : Ctx PageId Bytes Stored 0 H) (id : PageId)
    (records : List (Bytes × Stored)) : id ∈ (c.plug (.leaf id records)).ids :=
  (c.plug_ids _).mem_iff.mpr (mem_append_left _ (mem_singleton_self _))

theorem Session.CachedAt.look (h : s.CachedAt id fresh leaf) : s.look id = some (.inl leaf.records) := by
  cases fresh with
  | true => exact Session.look_fresh h
  | false => exact Session.look_dirty h.1 h.2

/-- The session with `leaf` read from its page into the dirty leaves. -/
def Session.withDirty (s : Session) (id : PageId) (leaf : Leaf) (ancestors : List PageId) : Session :=
  { s with
    dirtyLeaves := s.dirtyLeaves.insert id leaf
    scheduledFrees := s.scheduledFrees ++ [id]
    dirtyParentPaths := s.dirtyParentPaths.insert id ancestors }

theorem Session.withDirty_look (ancestors : List PageId) (hf : s.freshLeaves.lookup id = none)
    (hlook : s.look id = some (.inl leaf.records)) (p : PageId) :
    (s.withDirty id leaf ancestors).look p = s.look p := by
  by_cases hp : p = id
  · subst hp
    rw [hlook]
    exact Session.look_dirty hf (AList.lookup_insert _)
  · unfold Session.look Session.withDirty
    dsimp only
    rw [AList.lookup_insert_ne hp]

/-- What `touch_leaf` does: the leaf was cached already, or is read from its page. -/
theorem touchLeaf_eq_ok {ancestors : List PageId}
    (h : touchLeaf id ancestors s = .ok (fresh, leaf) s') :
    s'.CachedAt id fresh leaf ∧ (s' = s ∨ ∃ v, s.Quiet v ∧ s.freshLeaves.lookup id = none
      ∧ s.dirtyLeaves.lookup id = none ∧ s.pager.page id = some (.leaf leaf)
      ∧ s' = v.withDirty id leaf ancestors) := by
  unfold touchLeaf at h
  rw [get_bind] at h
  cases hf : s.freshLeaves.lookup id with
  | some l =>
    rw [hf, Option.isSome_some, if_pos rfl] at h
    obtain ⟨l', t, hcached, h⟩ := bind_eq_ok.mp h
    cases h
    obtain ⟨rfl, hl⟩ := cachedLeaf_eq_ok hcached
    exact ⟨hl, .inl rfl⟩
  | none =>
    rw [hf, Option.isSome_none, if_neg Bool.false_ne_true] at h
    obtain ⟨_, t, hensure, h⟩ := bind_eq_ok.mp h
    obtain ⟨l', u, hcached, h⟩ := bind_eq_ok.mp h
    cases h
    obtain ⟨rfl, hl⟩ := cachedLeaf_eq_ok hcached
    have hl : t.dirtyLeaves.lookup id = some leaf := hl
    unfold ensureLeafDirty at hensure
    rw [get_bind] at hensure
    cases hd : s.dirtyLeaves.lookup id with
    | some d =>
      rw [hd, Option.isSome_some, if_pos rfl] at hensure
      obtain ⟨-, rfl⟩ := pure_eq_ok.mp hensure
      exact ⟨⟨hf, hl⟩, .inl rfl⟩
    | none =>
      rw [hd, Option.isSome_none, if_neg Bool.false_ne_true] at hensure
      obtain ⟨l, v, hdecode, hensure⟩ := bind_eq_ok.mp hensure
      obtain ⟨hpage, hq⟩ := decodeLeafFromPager_eq_ok hdecode
      obtain rfl := modify_eq_ok.mp hensure
      have hlk : (v.dirtyLeaves.insert id l).lookup id = some leaf := hl
      rw [AList.lookup_insert] at hlk
      obtain rfl := Option.some.inj hlk
      refine ⟨⟨?_, hl⟩, .inr ⟨v, hq, rfl, rfl, hpage, rfl⟩⟩
      obtain ⟨faults, rfl⟩ := hq
      exact hf

/-- A leaf that enters the dirty leaves shows as before. -/
theorem Holds.dirty (hs : Holds g s retired held (c.plug (.leaf id records)))
    (hf : s.freshLeaves.lookup id = none) (hd : s.dirtyLeaves.lookup id = none)
    (hpage : s.pager.page id = some (.leaf leaf)) (hrecords : leaf.records = leafRecords records) :
    Holds g (s.withDirty id leaf c.pathIds.reverse) retired held (c.plug (.leaf id records)) := by
  have hc := hs.live.caches
  have hnotin : id ∉ s.dirtyLeaves := AList.lookup_eq_none.mp hd
  refine ⟨⟨⟨hc.fresh_mem, fun p hp => ?_, fun p hp hmem => ?_, fun p hp => ?_, fun p => ?_,
    fun p path hp => ?_, ?_⟩, hs.live.ordered, hs.live.values, ?_⟩, ?_, hs.root⟩
  · rcases (AList.mem_insert _).mp hp with rfl | hp
    · exact leaf_mem_ids c _ _
    · exact hc.dirty_mem p hp
  · rcases (AList.mem_insert _).mp hmem with rfl | hmem
    · exact AList.lookup_eq_none.mp hf hp
    · exact hc.apart p hp hmem
  · rcases (AList.mem_insert _).mp hp with rfl | hp
    · exact ⟨leaf, hpage⟩
    · exact hc.paged p hp
  · show p ∈ s.dirtyParentPaths.insert id _ ↔ p ∈ s.dirtyLeaves.insert id _
    rw [AList.mem_insert, AList.mem_insert, hc.path_keys]
  · by_cases hpid : p = id
    · subst hpid
      have hp : (s.dirtyParentPaths.insert p c.pathIds.reverse).lookup p = some path := hp
      rw [AList.lookup_insert] at hp
      obtain rfl := Option.some.inj hp
      refine (c.plug_leafPaths _).mem_iff.mpr (mem_append_left _ ?_)
      exact mem_map.mpr ⟨(p, []), mem_singleton_self _, by rw [append_nil]⟩
    · have hp : (s.dirtyParentPaths.insert id c.pathIds.reverse).lookup p = some path := hp
      rw [AList.lookup_insert_ne hpid] at hp
      exact hc.path_mem p path hp
  · show (s.scheduledFrees ++ [id]).Perm ((s.dirtyLeaves.insert id leaf).keys ++ retired)
    rw [Table.keys_insert_new hnotin]
    have := hc.scheduled
    grind
  · exact ⟨hs.live.ledger.four, hs.live.ledger.law, hs.live.ledger.drawn⟩
  · refine hs.rep.congr fun p _ cell hcell => ?_
    have hlook := Session.withDirty_look c.pathIds.reverse hf (by rw [hs.look_leaf, hrecords]) p
    cases cell <;> exact hlook.trans hcell

/-- **The leaf of a path is cached, and nothing else changed.** -/
theorem touchLeaf_spec (hs : Holds g s retired held (c.plug (.leaf id records)))
    (hrun : touchLeaf id c.pathIds.reverse s = .ok (fresh, leaf) s') :
    Holds g s' retired held (c.plug (.leaf id records)) ∧ s'.CachedAt id fresh leaf
      ∧ leaf.records = leafRecords records ∧ ∀ p, s'.pager.page p = s.pager.page p := by
  have hlook := hs.look_leaf
  obtain ⟨hcached, rfl | ⟨v, hq, hf, hd, hpage, rfl⟩⟩ := touchLeaf_eq_ok hrun
  · rw [hcached.look] at hlook
    injection hlook with hlook
    injection hlook with hlook
    exact ⟨hs, hcached, hlook, fun _ => rfl⟩
  · obtain ⟨page, hpage', hrecords⟩ := Session.page_of_look_leaf hs.live.caches.paged hf hlook
    rw [hpage] at hpage'
    cases hpage'
    rw [hd] at hrecords
    have hv := hs.quiet hq
    obtain ⟨faults, rfl⟩ := hq
    exact ⟨hv.dirty hf hd hpage hrecords, hcached, hrecords, fun _ => rfl⟩

theorem setCachedLeaf_eq_ok (h : setCachedLeaf id fresh leaf s = .ok u s') :
    s' = if fresh then { s with freshLeaves := s.freshLeaves.insert id leaf }
      else { s with dirtyLeaves := s.dirtyLeaves.insert id leaf } :=
  modify_eq_ok.mp h

theorem Ctx.plug_leaf_shape (c : Ctx PageId Bytes Stored 0 H) (id : PageId)
    (records records' : List (Bytes × Stored)) :
    (c.plug (.leaf id records)).ids = (c.plug (.leaf id records')).ids
      ∧ (c.plug (.leaf id records)).leafPaths = (c.plug (.leaf id records')).leafPaths
      ∧ (c.plug (.leaf id records)).id = (c.plug (.leaf id records')).id :=
  ⟨c.plug_ids_congr rfl, c.plug_leafPaths_congr rfl, c.plug_id_congr rfl⟩

/-- A session that differs at a leaf shows all other nodes. -/
theorem Holds.elsewhere (hs : Holds g s retired held (c.plug (.leaf id records)))
    (hlook : ∀ p, p ≠ id → s'.look p = s.look p) : ∀ e ∈ c.cells id, s'.Shows e.1 e.2 := by
  intro e he
  have hne : e.1 ≠ id := by
    intro heq
    have hnodup := (c.plug_ids (.leaf id records)).nodup_iff.mp hs.live.ids_nodup
    refine disjoint_of_nodup_append hnodup (mem_singleton_self id) ?_
    rw [← heq, ← c.cells_map_fst id]
    exact mem_map_of_mem he
  have hold := hs.rep e ((c.plug_cells _).mem_iff.mpr (mem_append_right _ he))
  obtain ⟨p, cell⟩ := e
  cases cell <;> exact (hlook p hne).trans hold

/-- **Replacing a cached leaf** replaces that leaf of the tree. -/
theorem Holds.setLeaf (hs : Holds g s retired held (c.plug (.leaf id records)))
    (hcached : s.CachedAt id fresh leaf) (hrecords : leaf'.records = leafRecords records')
    (hordered : InOrder (c.plug (.leaf id records')).items)
    (hvalues : ∀ r ∈ recordsOf (c.plug (.leaf id records')).items, r.2.Held s.pager)
    (hledger : Ledger g.source s (held' ++ ((c.plug (.leaf id records)).ids
      ++ (valuePages (c.plug (.leaf id records')).items ++ (retired ++ g.others)))))
    (hrun : setCachedLeaf id fresh leaf' s = .ok u s') :
    Holds g s' retired held' (c.plug (.leaf id records')) ∧ s'.CachedAt id fresh leaf'
      ∧ s'.pageSize = s.pageSize ∧ s'.pager = s.pager := by
  obtain ⟨hids, hpaths, hid⟩ := Ctx.plug_leaf_shape c id records records'
  have hc := hs.live.caches
  rw [hids] at hledger
  rw [hids, hpaths] at hc
  have hs' := setCachedLeaf_eq_ok hrun
  have hshow : (∀ p, p ≠ id → s'.look p = s.look p) → s'.look id = some (.inl leaf'.records) →
      Rep s'.Shows (c.plug (.leaf id records')) := by
    intro hne hself e he
    rcases mem_append.mp ((c.plug_cells _).mem_iff.mp he) with he | he
    · rw [mem_singleton.mp he]
      show s'.look id = _
      rw [hself, hrecords]
    · exact hs.elsewhere hne e he
  cases fresh with
  | true =>
    have hin : id ∈ s.freshLeaves := AList.lookup_isSome.mp (by rw [hcached]; rfl)
    rw [if_pos rfl] at hs'
    subst hs'
    refine ⟨⟨⟨⟨fun p hp => ?_, hc.dirty_mem, fun p hp => ?_, hc.paged, hc.path_keys, hc.path_mem,
      hc.scheduled⟩, hordered, hvalues, ⟨hledger.four, hledger.law, hledger.drawn⟩⟩, ?_,
      hid.symm.trans hs.root⟩, AList.lookup_insert _, rfl, rfl⟩
    · rcases (AList.mem_insert _).mp hp with rfl | hp
      · exact hc.fresh_mem p hin
      · exact hc.fresh_mem p hp
    · rcases (AList.mem_insert _).mp hp with rfl | hp
      · exact hc.apart p hin
      · exact hc.apart p hp
    · refine hshow (fun p hp => ?_) ?_
      · unfold Session.look
        dsimp only
        rw [AList.lookup_insert_ne hp]
      · exact Session.look_fresh (AList.lookup_insert _)
  | false =>
    obtain ⟨hf, hd⟩ := hcached
    have hin : id ∈ s.dirtyLeaves := AList.lookup_isSome.mp (by rw [hd]; rfl)
    have hmem : ∀ p, p ∈ s.dirtyLeaves.insert id leaf' ↔ p ∈ s.dirtyLeaves := by
      intro p
      rw [AList.mem_insert]
      constructor
      · rintro (rfl | hp)
        · exact hin
        · exact hp
      · exact Or.inr
    rw [if_neg Bool.false_ne_true] at hs'
    subst hs'
    refine ⟨⟨⟨⟨hc.fresh_mem, fun p hp => hc.dirty_mem p ((hmem p).mp hp),
      fun p hp h => hc.apart p hp ((hmem p).mp h), fun p hp => hc.paged p ((hmem p).mp hp),
      fun p => (hc.path_keys p).trans (hmem p).symm, hc.path_mem, ?_⟩, hordered, hvalues,
      ⟨hledger.four, hledger.law, hledger.drawn⟩⟩, ?_, hid.symm.trans hs.root⟩,
      ⟨hf, AList.lookup_insert _⟩, rfl, rfl⟩
    · exact hc.scheduled.trans ((Table.keys_insert_perm hin).symm.append_right _)
    · refine hshow (fun p hp => ?_) ?_
      · unfold Session.look
        dsimp only
        rw [AList.lookup_insert_ne hp]
      · exact Session.look_dirty hf (AList.lookup_insert _)

/-! ## §2. The record of a key -/

/-- What a read-out gives for a key. -/
def contents (items : List (Item Bytes Stored)) (k : Bytes) : Option Bytes :=
  (find k (recordsOf items)).map Stored.bytes

/-- A leaf and its context cut at the key `k`: `left` and `right` are the records
    of the leaf on both sides, and the whole read-out is in order around it. -/
structure Cut (c : Ctx PageId Bytes Stored 0 H) (k : Bytes) (left right : List (Bytes × Stored)) :
    Prop where
  around : Around k left right
  before : ∀ x ∈ c.before ++ entries left, x.Before k
  after : ∀ x ∈ entries right ++ c.after, x.After k
  ordered_before : InOrder (c.before ++ entries left)
  ordered_after : InOrder (entries right ++ c.after)

theorem plug_around_items (c : Ctx PageId Bytes Stored 0 H) (id : PageId) (k : Bytes)
    (left right : List (Bytes × Stored)) (value : Option Stored) :
    (c.plug (.leaf id (around left k value right))).items
      = (c.before ++ entries left) ++ (value.map fun v => Item.entry k v).toList
        ++ (entries right ++ c.after) := by
  rw [Ctx.plug_items]
  show c.before ++ entries (around left k value right) ++ c.after = _
  unfold around entries
  cases value <;> simp

/-- A leaf where the descent for `k` ends can be cut at `k`. -/
theorem exists_cut (hord : InOrder (c.plug (.leaf id records)).items)
    (hbefore : ∀ x ∈ c.before, x.Before k) (hafter : ∀ x ∈ c.after, x.After k) :
    ∃ left old right, records = around left k old right ∧ Cut c k left right := by
  have hitems : InOrder (c.before ++ entries records ++ c.after) := by
    rw [Ctx.plug_items] at hord
    exact hord
  have hsorted := inOrder_entries.mp (pairwise_append.mp (pairwise_append.mp hitems).1).2.1
  obtain ⟨left, old, right, haround, rfl⟩ := exists_around k hsorted
  rw [plug_around_items] at hord
  obtain ⟨hleft, hright, -⟩ := pairwise_append.mp hord
  refine ⟨left, old, right, rfl, haround, ?_, ?_, (pairwise_append.mp hleft).1, hright⟩
  · intro x hx
    rcases mem_append.mp hx with hx | hx
    · exact hbefore x hx
    · exact Item.before_entries haround.lt x hx
  · intro x hx
    rcases mem_append.mp hx with hx | hx
    · exact Item.after_entries haround.gt x hx
    · exact hafter x hx

namespace Cut

variable {k : Bytes} {left right : List (Bytes × Stored)}

theorem ordered (hcut : Cut c k left right) (id : PageId) (value : Option Stored) :
    InOrder (c.plug (.leaf id (Lib.around left k value right))).items := by
  rw [plug_around_items]
  exact InOrder.around value hcut.ordered_before hcut.ordered_after hcut.before hcut.after

theorem records_eq (c : Ctx PageId Bytes Stored 0 H) (id : PageId) (k : Bytes)
    (left right : List (Bytes × Stored)) (value : Option Stored) :
    recordsOf (c.plug (.leaf id (Lib.around left k value right))).items
      = Lib.around (recordsOf (c.before ++ Lib.entries left)) k value
          (recordsOf (Lib.entries right ++ c.after)) := by
  rw [plug_around_items, Lib.recordsOf_append, Lib.recordsOf_append]
  unfold Lib.around
  cases value <;> rfl

/-- The overflow pages of the read-out, those of the record at `k` in front. -/
theorem pages_perm (c : Ctx PageId Bytes Stored 0 H) (id : PageId) (k : Bytes)
    (left right : List (Bytes × Stored)) (value : Option Stored) :
    (valuePages (c.plug (.leaf id (Lib.around left k value right))).items).Perm
      (value.elim [] Stored.pages ++ (valuePages (c.before ++ Lib.entries left)
        ++ valuePages (Lib.entries right ++ c.after))) := by
  rw [plug_around_items, valuePages_append, valuePages_append]
  cases value with
  | none =>
    show (valuePages (c.before ++ Lib.entries left) ++ []
      ++ valuePages (Lib.entries right ++ c.after)).Perm _
    rw [append_nil]
    exact List.Perm.refl _
  | some v =>
    show (valuePages (c.before ++ Lib.entries left) ++ (v.pages ++ [])
      ++ valuePages (Lib.entries right ++ c.after)).Perm (v.pages ++ _)
    grind

/-- **Changing the record at `k` changes what `k` reads, and nothing else.** -/
theorem contents_eq (hcut : Cut c k left right) (id : PageId) (old value : Option Stored) :
    contents (c.plug (.leaf id (Lib.around left k value right))).items
      = Function.update (contents (c.plug (.leaf id (Lib.around left k old right))).items) k
          (value.map Stored.bytes) := by
  have haround := Lib.Around.of_items hcut.before hcut.after
  funext j
  unfold contents
  rw [records_eq, records_eq]
  by_cases hj : j = k
  · subst hj
    rw [Function.update_self, Lib.find_around haround]
  · rw [Function.update_of_ne hj, Lib.find_around_ne hj, Lib.find_around_ne hj]

theorem contents_self (hcut : Cut c k left right) (id : PageId) (value : Option Stored) :
    contents (c.plug (.leaf id (Lib.around left k value right))).items k
      = value.map Stored.bytes := by
  rw [hcut.contents_eq id value value, Function.update_self]

/-- The records other than the one at `k` do not depend on it. -/
theorem mem_records {value : Option Stored} (old : Option Stored) {r : Bytes × Stored}
    (hr : r ∈ recordsOf (c.plug (.leaf id (Lib.around left k value right))).items) :
    r.2 ∈ value ∨ r ∈ recordsOf (c.plug (.leaf id (Lib.around left k old right))).items := by
  rw [records_eq] at hr ⊢
  unfold Lib.around at hr ⊢
  rcases mem_append.mp hr with hr | hr
  · rcases mem_append.mp hr with hr | hr
    · exact Or.inr (mem_append_left _ (mem_append_left _ hr))
    · cases value with
      | none => cases hr
      | some v =>
        rw [mem_singleton.mp (show r ∈ [(k, v)] from hr)]
        exact Or.inl rfl
  · exact Or.inr (mem_append_right _ hr)

end Cut

section Leaf

variable {k : Bytes} {left right : List (Bytes × Stored)}

theorem leafRecords_around (old : Option Stored) : leafRecords (around left k old right)
      = around (leafRecords left) k (old.map Stored.leafValue) (leafRecords right) := by
  unfold leafRecords around
  cases old <;> simp

theorem leafRecords_sides (h : Around k left right) :
    Around k (leafRecords left) (leafRecords right) where
  lt := by
    intro e he
    obtain ⟨r, hr, rfl⟩ := mem_map.mp he
    exact h.lt r hr
  gt := by
    intro e he
    obtain ⟨r, hr, rfl⟩ := mem_map.mp he
    exact h.gt r hr

variable {leaf : Leaf} {old : Option Stored}

theorem Leaf.upsert_around (h : Around k left right)
    (hleaf : leaf.records = leafRecords (around left k old right)) (v : Stored) :
    (leaf.upsert k v.leafValue).1.records = leafRecords (around left k (some v) right)
      ∧ (leaf.upsert k v.leafValue).2 = old.map Stored.leafValue := by
  rw [leafRecords_around] at hleaf ⊢
  unfold Leaf.upsert
  rw [hleaf, binarySearch_around (leafRecords_sides h), upsertSorted_around (leafRecords_sides h)]
  exact ⟨rfl, rfl⟩

theorem Leaf.remove_around (h : Around k left right)
    (hleaf : leaf.records = leafRecords (around left k old right)) :
    (leaf.remove k).1.records = leafRecords (around left k none right)
      ∧ (leaf.remove k).2 = old.map Stored.leafValue := by
  rw [leafRecords_around] at hleaf ⊢
  unfold Leaf.remove
  rw [hleaf, binarySearch_around (leafRecords_sides h)]
  refine ⟨?_, rfl⟩
  show leafRecords left ++ leafRecords right = leafRecords left ++ [] ++ leafRecords right
  rw [append_nil]

theorem Leaf.get_around (h : Around k left right)
    (hleaf : leaf.records = leafRecords (around left k old right)) :
    leaf.get k = old.map Stored.leafValue := by
  rw [leafRecords_around] at hleaf
  unfold Leaf.get
  rw [hleaf, binarySearch_around (leafRecords_sides h)]

end Leaf

section Exchange

variable {left right : List (Bytes × Stored)} {old : Option Stored} (value : Option Stored)
  {t : Session} (hs : Holds g s retired (value.elim [] Stored.pages ++ held)
    (c.plug (.leaf id (around left k old right)))) (hcut : Cut c k left right)
  (hcached : s.CachedAt id fresh leaf) (hheld : ∀ v ∈ value, v.Held s.pager)
  (hleaf : leaf'.records = leafRecords (around left k value right))
  (hset : setCachedLeaf id fresh leaf' s = .ok u t)

include hs hcut hcached hheld hleaf hset

/-- The record at a cut is exchanged in the cached leaf: the new value's pages were
    held outside the tree, the old value's pages are now. -/
theorem Holds.exchange :
    Holds g t retired (old.elim [] Stored.pages ++ held)
        (c.plug (.leaf id (around left k value right)))
      ∧ t.CachedAt id fresh leaf' ∧ t.pageSize = s.pageSize ∧ ∀ w ∈ old, w.Held t.pager := by
  have hpages := Cut.pages_perm c id k left right
  have hledger : Ledger g.source s ((old.elim [] Stored.pages ++ held)
      ++ ((c.plug (.leaf id (around left k old right))).ids
        ++ (valuePages (c.plug (.leaf id (around left k value right))).items
          ++ (retired ++ g.others)))) := by
    refine hs.live.ledger.perm ?_
    have hold := hpages old
    have hnew := hpages value
    grind
  have hvalues : ∀ r ∈ recordsOf (c.plug (.leaf id (around left k value right))).items,
      r.2.Held s.pager := by
    intro r hr
    rcases Cut.mem_records old hr with hr | hr
    · exact hheld _ hr
    · exact hs.live.values r hr
  obtain ⟨ht, htcached, hsize, hpager⟩ := hs.setLeaf hcached hleaf (hcut.ordered id value) hvalues
    hledger hset
  refine ⟨ht, htcached, hsize, fun w hw => ?_⟩
  rw [hpager]
  refine hs.live.values (k, w) ?_
  rw [Cut.records_eq, Option.mem_def.mp hw]
  exact mem_append_left _ mem_concat_self

/-- **One record of the tree changes**, and the old value's pages are given
    back. -/
theorem Holds.edit {undo : TreeM Unit} {u' : Unit}
    (hrelease : releaseOld undo (old.map Stored.leafValue) t = .ok u' s') :
    Holds g s' retired held (c.plug (.leaf id (around left k value right)))
      ∧ s'.CachedAt id fresh leaf' ∧ s'.pageSize = s.pageSize := by
  obtain ⟨ht, htcached, hsize, hold⟩ := hs.exchange value hcut hcached hheld hleaf hset
  have hlt := ht.live.ledger
  rw [append_assoc] at hlt
  obtain ⟨hls, htouch⟩ := releaseOld_spec hold hlt hrelease
  refine ⟨ht.touch htouch hls (nil_subset _), ?_, ?_⟩
  · obtain ⟨n, f, r, d, e, pager, rfl, -⟩ := htouch
    cases fresh <;> exact htcached
  · exact htouch.pageSize.trans hsize

end Exchange

/-! ## §3. A leaf that has to split -/

theorem splitPointFrom_pos {fits : Nat → Bool × Bool} {total : Nat} (turns : Nat) :
    ∀ {splitAt n : Nat}, splitPointFrom fits total turns splitAt = some n → 1 ≤ n := by
  induction turns with
  | zero => intro splitAt n h; cases h
  | succ turns ih =>
    intro splitAt n h
    unfold splitPointFrom at h
    dsimp only at h
    have hpos : 1 ≤ max (min splitAt (total - 1)) 1 := Nat.le_max_right _ _
    split at h
    · obtain rfl := Option.some.inj h
      exact hpos
    · split at h
      · exact ih h
      · split at h
        · exact ih h
        · obtain rfl := Option.some.inj h
          exact hpos

/-- Both halves have a record, and the separator is the first key on the
    right. -/
theorem splitLeaf_spec {pageSize : Nat} (h : splitLeaf leaf monotonic pageSize = some (l, r, sep)) :
    ∃ init x y tail, leaf.records = init ++ x :: y :: tail ∧ l.records = init ++ [x]
      ∧ r.records = y :: tail ∧ y.1 = sep := by
  unfold splitLeaf at h
  obtain ⟨n, hn, h⟩ := Option.bind_eq_some_iff.mp h
  obtain ⟨y, hy, h⟩ := Option.bind_eq_some_iff.mp h
  obtain ⟨rfl, rfl, rfl⟩ : _ ∧ _ ∧ _ := by
    have h := Option.some.inj h
    exact ⟨congrArg Prod.fst h, congrArg (fun q => q.2.1) h, congrArg (fun q => q.2.2) h⟩
  have hpos : 1 ≤ n := by
    unfold splitPoint at hn
    exact splitPointFrom_pos _ hn
  obtain ⟨tail, htail⟩ := head?_eq_some_iff.mp hy
  have hlt : n < leaf.records.length := by
    by_contra hge
    rw [drop_eq_nil_of_le (Nat.le_of_not_lt hge)] at htail
    cases htail
  have hne : leaf.records.take n ≠ [] := by
    intro hnil
    have := congrArg List.length hnil
    rw [length_take, length_nil] at this
    omega
  refine ⟨(leaf.records.take n).dropLast, (leaf.records.take n).getLast hne, y, tail, ?_, ?_,
    htail, rfl⟩
  · conv_lhs => rw [← take_append_drop n leaf.records, htail, ← dropLast_append_getLast hne]
    rw [append_assoc]
    rfl
  · exact (dropLast_append_getLast hne).symm

/-- The halves as stored records. -/
theorem splitLeaf_stored {pageSize : Nat} (h : splitLeaf leaf monotonic pageSize = some (l, r, sep))
    (hrecords : leaf.records = leafRecords records) :
    ∃ A a b B, records = A ++ a :: b :: B ∧ l.records = leafRecords (A ++ [a])
      ∧ r.records = leafRecords (b :: B) ∧ sep = b.1 := by
  obtain ⟨init, x, y, tail, hcut, hl, hr, rfl⟩ := splitLeaf_spec h
  rw [hrecords] at hcut
  obtain ⟨A, rest, rfl, rfl, hrest⟩ := map_eq_append_iff.mp hcut
  obtain ⟨a, rest', rfl, rfl, hrest'⟩ := map_eq_cons_iff.mp hrest
  obtain ⟨b, B, rfl, rfl, rfl⟩ := map_eq_cons_iff.mp hrest'
  refine ⟨A, a, b, B, rfl, ?_, hr, rfl⟩
  rw [hl]
  unfold leafRecords
  rw [map_append]
  rfl

theorem swapRemove_perm {l : List PageId} (h : id ∈ l) : l.Perm (id :: swapRemove l id) := by
  obtain ⟨a, b, rfl, ha⟩ := eq_append_cons_of_mem h
  have hpos : (a ++ id :: b).idxOf id = a.length := by
    rw [idxOf_append_of_notMem ha, idxOf_cons_self, Nat.add_zero]
  have hlt : a.length < (a ++ id :: b).length := by
    rw [length_append, length_cons]
    omega
  unfold swapRemove
  dsimp only
  rw [hpos, if_pos hlt]
  rcases eq_nil_or_concat b with rfl | ⟨b', z, rfl⟩
  · rw [getLast?_concat]
    show (a ++ [id]).Perm (id :: ((a ++ [id]).set a.length id).dropLast)
    rw [set_append_right _ _ (Nat.le_refl _), Nat.sub_self]
    show (a ++ [id]).Perm (id :: (a ++ [id]).dropLast)
    rw [dropLast_concat]
    exact perm_append_singleton _ _
  · rw [concat_eq_append, show a ++ id :: (b' ++ [z]) = a ++ id :: b' ++ [z] by simp,
      getLast?_concat]
    show (a ++ id :: b' ++ [z]).Perm (id :: ((a ++ id :: b' ++ [z]).set a.length z).dropLast)
    rw [append_assoc, set_append_right _ _ (Nat.le_refl _), Nat.sub_self]
    show (a ++ (id :: b' ++ [z])).Perm (id :: (a ++ (z :: b' ++ [z])).dropLast)
    rw [← append_assoc a (z :: b') [z], dropLast_concat]
    grind

/-- A leaf about to split leaves its cache; its page is held outside the tree,
    which has a hole there. -/
theorem Holds.take (hs : Holds g s retired held (c.plug (.leaf id records)))
    (hcached : s.CachedAt id fresh leaf) (hrun : takeCachedLeaf id fresh s = .ok u s') :
    Live g s' retired (id :: held) c.ids (c.plug (.leaf id records)).items c.siblingPaths
      ∧ (∀ e ∈ c.cells id, s'.Shows e.1 e.2) ∧ s'.pager = s.pager := by
  have hids := c.plug_ids (.leaf id records)
  have hpaths := c.plug_leafPaths (.leaf id records)
  have hc := hs.live.caches
  have hledger : Ledger g.source s ((id :: held) ++ (c.ids
      ++ (valuePages (c.plug (.leaf id records)).items ++ (retired ++ g.others)))) := by
    refine hs.live.ledger.perm ?_
    have hids : (c.plug (.leaf id records)).ids.Perm (id :: c.ids) := hids
    grind
  have hmem : ∀ p, p ∈ (c.plug (.leaf id records)).ids → p ≠ id → p ∈ c.ids := by
    intro p hp hne
    rcases mem_cons.mp (hids.mem_iff.mp hp) with heq | hp
    · exact absurd heq hne
    · exact hp
  have hpath : ∀ p path, (p, path) ∈ (c.plug (.leaf id records)).leafPaths → p ≠ id →
      (p, path) ∈ c.siblingPaths := by
    intro p path hp hne
    rcases mem_append.mp (hpaths.mem_iff.mp hp) with hp | hp
    · obtain ⟨l, hl, heq⟩ := mem_map.mp hp
      rw [mem_singleton.mp hl] at heq
      exact absurd (Prod.mk.inj heq).1.symm hne
    · exact hp
  have hs' := modify_eq_ok.mp hrun
  cases fresh with
  | true =>
    have hin : id ∈ s.freshLeaves := AList.lookup_isSome.mp (by rw [hcached]; rfl)
    have hdirty : ∀ p ∈ s.dirtyLeaves, p ≠ id := fun p hp heq => hc.apart id hin (heq ▸ hp)
    rw [if_pos rfl] at hs'
    subst hs'
    refine ⟨⟨⟨fun p hp => ?_, fun p hp => hmem p (hc.dirty_mem p hp) (hdirty p hp),
      fun p hp => hc.apart p (AList.mem_erase.mp hp).2, hc.paged, hc.path_keys,
      fun p path hp => ?_, hc.scheduled⟩, hs.live.ordered, hs.live.values,
      ⟨hledger.four, hledger.law, hledger.drawn⟩⟩, hs.elsewhere fun p hp => ?_, rfl⟩
    · obtain ⟨hne, hp⟩ := AList.mem_erase.mp hp
      exact hmem p (hc.fresh_mem p hp) hne
    · refine hpath p path (hc.path_mem p path hp) (hdirty p ((hc.path_keys p).mp ?_))
      exact AList.lookup_isSome.mp (by rw [hp]; rfl)
    · unfold Session.look
      dsimp only
      rw [AList.lookup_erase_ne hp]
  | false =>
    obtain ⟨hf, hd⟩ := hcached
    have hin : id ∈ s.dirtyLeaves := AList.lookup_isSome.mp (by rw [hd]; rfl)
    have hfresh : ∀ p ∈ s.freshLeaves, p ≠ id := fun p hp heq =>
      AList.lookup_eq_none.mp hf (heq ▸ hp)
    rw [if_neg Bool.false_ne_true] at hs'
    subst hs'
    refine ⟨⟨⟨fun p hp => hmem p (hc.fresh_mem p hp) (hfresh p hp), fun p hp => ?_,
      fun p hp h => hc.apart p hp (AList.mem_erase.mp h).2,
      fun p hp => hc.paged p (AList.mem_erase.mp hp).2, fun p => ?_, fun p path hp => ?_, ?_⟩,
      hs.live.ordered, hs.live.values, ⟨hledger.four, hledger.law, hledger.drawn⟩⟩,
      hs.elsewhere fun p hp => ?_, rfl⟩
    · obtain ⟨hne, hp⟩ := AList.mem_erase.mp hp
      exact hmem p (hc.dirty_mem p hp) hne
    · show p ∈ s.dirtyParentPaths.erase id ↔ p ∈ s.dirtyLeaves.erase id
      rw [AList.mem_erase, AList.mem_erase, hc.path_keys]
    · have hne : p ≠ id := by
        rintro rfl
        have hp : (s.dirtyParentPaths.erase p).lookup p = some path := hp
        rw [AList.lookup_erase] at hp
        cases hp
      have hp : (s.dirtyParentPaths.erase id).lookup p = some path := hp
      rw [AList.lookup_erase_ne hne] at hp
      exact hpath p path (hc.path_mem p path hp) hne
    · show (swapRemove s.scheduledFrees id).Perm ((s.dirtyLeaves.erase id).keys ++ retired)
      have hkeys := Table.keys_erase_perm hin
      have hsched : id ∈ s.scheduledFrees :=
        hc.scheduled.mem_iff.mpr (mem_append_left _ (AList.mem_keys.mp hin))
      have hperm : (id :: swapRemove s.scheduledFrees id).Perm
          (id :: ((s.dirtyLeaves.erase id).keys ++ retired)) :=
        ((swapRemove_perm hsched).symm.trans hc.scheduled).trans (hkeys.append_right _)
      exact hperm.cons_inv
    · unfold Session.look
      dsimp only
      rw [AList.lookup_erase_ne hp]

/-- A page held outside the tree becomes a fresh leaf of it. -/
theorem Live.addFresh {ids : List PageId} {items : List (Item Bytes Stored)}
    {paths : List (PageId × List PageId)} (hs : Live g s retired (id :: held) ids items paths)
    (leaf : Leaf) :
    Live g { s with freshLeaves := s.freshLeaves.insert id leaf } retired held (id :: ids) items
      paths := by
  have hc := hs.caches
  have hout : id ∉ ids := hs.held_notMem_ids mem_cons_self
  refine ⟨⟨fun p hp => ?_, fun p hp => mem_cons_of_mem _ (hc.dirty_mem p hp), fun p hp => ?_,
    hc.paged, hc.path_keys, hc.path_mem, hc.scheduled⟩, hs.ordered, hs.values, ?_⟩
  · rcases (AList.mem_insert _).mp hp with rfl | hp
    · exact mem_cons_self
    · exact mem_cons_of_mem _ (hc.fresh_mem p hp)
  · rcases (AList.mem_insert _).mp hp with rfl | hp
    · exact fun h => hout (hc.dirty_mem p h)
    · exact hc.apart p hp
  · have hl : Ledger g.source s (held ++ ((id :: ids) ++ (valuePages items
        ++ (retired ++ g.others)))) := hs.ledger.perm perm_middle
    exact ⟨hl.four, hl.law, hl.drawn⟩

/-- The read-out of a tree after a leaf with `records` was cut in two: a separator
    stands between the halves, and both have a record. -/
def SplitItems (c : Ctx PageId Bytes Stored 0 H) (records : List (Bytes × Stored))
    (items : List (Item Bytes Stored)) : Prop :=
  ∃ A a b B, records = A ++ a :: b :: B
    ∧ items = c.before ++ (entries (A ++ [a]) ++ .sep b.1 :: entries (b :: B)) ++ c.after

theorem SplitItems.recordsOf_eq {items : List (Item Bytes Stored)} (h : SplitItems c records items)
    (id : PageId) : recordsOf items = recordsOf (c.plug (.leaf id records)).items := by
  obtain ⟨A, a, b, B, rfl, rfl⟩ := h
  rw [Ctx.plug_items]
  show _ = recordsOf (c.before ++ entries (A ++ a :: b :: B) ++ c.after)
  simp only [recordsOf_append, recordsOf_sep, entries, recordsOf_records]
  rw [append_assoc A [a] (b :: B), singleton_append]

theorem SplitItems.contents_eq {items : List (Item Bytes Stored)} (h : SplitItems c records items)
    (id : PageId) : contents items = contents (c.plug (.leaf id records)).items :=
  congrArg (fun records j => (find j records).map Stored.bytes) (h.recordsOf_eq id)

/-- **The hole of a split.**  A leaf is taken out, and its two halves wait for their
    place. -/
theorem splitAtPath_hole {newLeaf right : PageId} {s₁ s₂ s₃ s₅ : Session} {w : Unit}
    (hs : Holds g s retired [] (c.plug (.leaf id records))) (hcached : s.CachedAt id fresh leaf)
    (hrecords : leaf.records = leafRecords records) (htake : takeCachedLeaf id fresh s = .ok u s₁)
    (halloc : allocatePage s₁ = .ok newLeaf s₂)
    (hsplit : splitLeaf leaf monotonic s₂.pageSize = some (l, r, sep))
    (halloc' : allocatePage s₂ = .ok right s₃) (hfree : freePage id { s₃ with
      freshLeaves := (s₃.freshLeaves.insert newLeaf
        { l with leftSibling := 0, rightSibling := 0 }).insert right
        { r with leftSibling := 0, rightSibling := 0 } } = .ok w s₅) :
    ∃ A a b B, records = A ++ a :: b :: B ∧ sep = b.1
      ∧ Hole g s₅ retired c id [.leaf newLeaf (A ++ [a]), .leaf right (b :: B)]
        (entries (A ++ [a]) ++ .sep b.1 :: entries (b :: B)) := by
  obtain ⟨A, a, b, B, rfl, hl, hr, rfl⟩ := splitLeaf_stored hsplit hrecords
  -- the caches and the ledger, move by move
  obtain ⟨h₁, hctx, -⟩ := hs.take hcached htake
  obtain ⟨hl₂, ht₂⟩ := h₁.ledger.allocate halloc
  have h₂ : Live g s₂ retired [newLeaf, id] c.ids _ _ :=
    h₁.touch ht₂ hl₂ (nil_subset _)
  obtain ⟨hl₃, ht₃⟩ := h₂.ledger.allocate halloc'
  have h₃ : Live g s₃ retired [newLeaf, right, id] c.ids _ _ :=
    h₂.touch ht₃ (hl₃.perm (List.Perm.swap _ _ _)) (nil_subset _)
  have hnew : newLeaf ∉ c.ids := h₃.held_notMem_ids mem_cons_self
  have hnew' : right ∉ c.ids :=
    h₃.held_notMem_ids (mem_cons_of_mem _ mem_cons_self)
  have hne : newLeaf ≠ right := by
    rintro rfl
    exact (nodup_cons.mp hl₃.nodup).1 mem_cons_self
  have h₄ := (h₃.addFresh { l with leftSibling := 0, rightSibling := 0 }).addFresh
    { r with leftSibling := 0, rightSibling := 0 }
  obtain ⟨hl₅, ht₅⟩ := h₄.ledger.free hfree
  have h₅ : Live g s₅ retired [] (right :: newLeaf :: c.ids) _ _ :=
    h₄.touch ht₅ hl₅ (nil_subset _)
  have hfresh : s₅.freshLeaves = (s₃.freshLeaves.insert newLeaf
      { l with leftSibling := 0, rightSibling := 0 }).insert right
      { r with leftSibling := 0, rightSibling := 0 } := by
    obtain ⟨n, f, q, d, e, pager, rfl, -⟩ := ht₅
    rfl
  have hleft : s₅.freshLeaves.lookup newLeaf
      = some { l with leftSibling := 0, rightSibling := 0 } := by
    rw [hfresh, AList.lookup_insert_ne hne, AList.lookup_insert]
  have hright : s₅.freshLeaves.lookup right
      = some { r with leftSibling := 0, rightSibling := 0 } := by
    rw [hfresh, AList.lookup_insert]
  have hlook : ∀ p, p ≠ newLeaf → p ≠ right → s₅.look p = s₁.look p := by
    intro p hp hp'
    rw [ht₅.look not_mem_nil, ← ht₂.look not_mem_nil, ← ht₃.look not_mem_nil]
    unfold Session.look
    dsimp only
    rw [AList.lookup_insert_ne hp', AList.lookup_insert_ne hp]
  -- the read-out with the separator in it
  have hold : (c.plug (.leaf id (A ++ a :: b :: B))).items = (c.before ++ entries A)
      ++ .entry a.1 a.2 :: .entry b.1 b.2 :: (entries B ++ c.after) := by
    rw [Ctx.plug_items]
    show c.before ++ entries (A ++ a :: b :: B) ++ c.after = _
    unfold entries
    simp
  have hmid : c.before ++ (entries (A ++ [a]) ++ .sep b.1 :: entries (b :: B)) ++ c.after
      = (c.before ++ entries A)
        ++ .entry a.1 a.2 :: .sep b.1 :: .entry b.1 b.2 :: (entries B ++ c.after) := by
    unfold entries
    simp
  have hordered := hs.live.ordered
  rw [hold] at hordered
  have hordered' := hordered.separate
  have hcutItems : SplitItems c (A ++ a :: b :: B)
      (c.before ++ (entries (A ++ [a]) ++ .sep b.1 :: entries (b :: B)) ++ c.after) :=
    ⟨A, a, b, B, rfl, rfl⟩
  have hrec := hcutItems.recordsOf_eq id
  refine ⟨A, a, b, B, rfl, rfl, ?_⟩
  refine ⟨h₅.congr ?_ (by rw [hmid]; exact hordered') hrec (subset_append_right _ _), ?_, ?_, ?_⟩
  · exact List.Perm.swap _ _ _
  · intro n hn e he
    rcases mem_cons.mp hn with rfl | hn
    · rw [mem_singleton.mp he]
      show s₅.look newLeaf = _
      rw [Session.look_fresh hleft, ← hl]
    · rw [mem_singleton.mp hn] at he
      rw [mem_singleton.mp he]
      show s₅.look right = _
      rw [Session.look_fresh hright, ← hr]
  · intro e he
    have hmem : e.1 ∈ c.ids := by
      rw [← c.cells_map_fst id]
      exact mem_map_of_mem he
    have hlook := hlook e.1 (fun heq => hnew (heq ▸ hmem)) fun heq => hnew' (heq ▸ hmem)
    have hold := hctx e he
    obtain ⟨p, cell⟩ := e
    cases cell <;> exact hlook.trans hold
  · exact h₁.held_notMem_ids mem_cons_self

/-- **A leaf that has to split** becomes two. -/
theorem splitAtPath_spec (hs : Holds g s retired [] (c.plug (.leaf id records)))
    (hcached : s.CachedAt id fresh leaf) (hrecords : leaf.records = leafRecords records)
    (hrun : splitAtPath id fresh c.pathIds leaf monotonic s = .ok u s') :
    ∃ (H' : Nat) (t : PageTree H'), Holds g s' retired [] t ∧ SplitItems c records t.items := by
  unfold splitAtPath at hrun
  obtain ⟨_, s₁, htake, hrun⟩ := bind_eq_ok.mp hrun
  obtain ⟨newLeaf, s₂, halloc, hrun⟩ := bind_eq_ok.mp hrun
  rw [get_bind] at hrun
  cases hsplit : splitLeaf leaf monotonic s₂.pageSize with
  | none =>
    rw [hsplit] at hrun
    exact absurd (throw_eq_ok.mp hrun) not_false
  | some halves =>
    obtain ⟨l, r, sep⟩ := halves
    rw [hsplit] at hrun
    obtain ⟨right, s₃, halloc', hrun⟩ := bind_eq_ok.mp hrun
    rw [modify_bind] at hrun
    obtain ⟨_, s₅, hfree, hrun⟩ := bind_eq_ok.mp hrun
    obtain ⟨A, a, b, B, rfl, rfl, hhole⟩ :=
      splitAtPath_hole hs hcached hrecords htake halloc hsplit halloc' hfree
    obtain ⟨H', t, ht, htitems⟩ := propagateSplitUp_spec c hhole hrun
    exact ⟨H', t, ht, A, a, b, B, rfl, htitems⟩

/-! ## §4. Insert and delete along a path -/

section Path

variable {k : Bytes} {left right : List (Bytes × Stored)} {old : Option Stored}

section Put

variable {v : Stored}
  (hs : Holds g s retired v.pages (c.plug (.leaf id (around left k old right))))
  (hcut : Cut c k left right) (hheld : v.Held s.pager)

include hs hcut hheld

/-- The leaf a put has touched: its record is set, and the old value is given back. -/
theorem Holds.upsert {t : Session}
    (htouch : touchLeaf id c.pathIds.reverse s = .ok (fresh, leaf) t) :
    ∃ leaf', leaf.upsert k v.leafValue = (leaf', old.map Stored.leafValue)
      ∧ leaf'.records = leafRecords (around left k (some v) right)
      ∧ ∀ {undo s₂ s₃ u u'}, setCachedLeaf id fresh leaf' t = .ok u s₂ →
        releaseOld undo (old.map Stored.leafValue) s₂ = .ok u' s₃ →
        Holds g s₃ retired [] (c.plug (.leaf id (around left k (some v) right)))
          ∧ s₃.CachedAt id fresh leaf' := by
  obtain ⟨h₁, hcached, hleaf, hpager⟩ := touchLeaf_spec hs htouch
  obtain ⟨hnew, hold⟩ := Leaf.upsert_around hcut.around hleaf v
  refine ⟨_, Prod.ext rfl hold, hnew, fun hset hrelease => ?_⟩
  have hheld₁ : ∀ w ∈ some v, w.Held t.pager := by
    rintro w ⟨⟩
    exact hheld.congr fun p _ => hpager p
  rw [← append_nil v.pages] at h₁
  obtain ⟨h₃, hcached₃, -⟩ := h₁.edit (some v) hcut hcached hheld₁ hnew hset hrelease
  exact ⟨h₃, hcached₃⟩

/-- **Insert at the leaf of its key.**  Without a split the leaf stays where it
    is. -/
theorem putAtPath_cases {split : Bool}
    (hrun : putAtPath (c.pathIds.reverse ++ [id]) k v.leafValue s = .ok split s') :
    (split = false ∧ Holds g s' retired [] (c.plug (.leaf id (around left k (some v) right))))
      ∨ (split = true ∧ ∃ (H' : Nat) (t : PageTree H'), Holds g s' retired [] t
        ∧ SplitItems c (around left k (some v) right) t.items) := by
  unfold putAtPath at hrun
  rw [getLast?_concat] at hrun
  dsimp only at hrun
  rw [dropLast_concat] at hrun
  obtain ⟨⟨fresh, leaf⟩, s₁, htouch, hrun⟩ := bind_eq_ok.mp hrun
  obtain ⟨leaf', hupsert, hnew, hedit⟩ := hs.upsert hcut hheld htouch
  dsimp only at hrun
  rw [hupsert] at hrun
  obtain ⟨_, s₂, hset, hrun⟩ := bind_eq_ok.mp hrun
  obtain ⟨_, s₃, hrelease, hrun⟩ := bind_eq_ok.mp hrun
  obtain ⟨h₃, hcached₃⟩ := hedit hset hrelease
  rw [get_bind] at hrun
  split_ifs at hrun with hfits
  · obtain ⟨rfl, rfl⟩ := pure_eq_ok.mp hrun
    exact Or.inl ⟨rfl, h₃⟩
  · rw [reverse_reverse] at hrun
    obtain ⟨_, s₄, hsplit, hrun⟩ := bind_eq_ok.mp hrun
    obtain ⟨rfl, rfl⟩ := pure_eq_ok.mp hrun
    exact Or.inr ⟨rfl, splitAtPath_spec h₃ hcached₃ hnew hsplit⟩

/-- What an insert does to the map. -/
theorem putAtPath_spec {split : Bool}
    (hrun : putAtPath (c.pathIds.reverse ++ [id]) k v.leafValue s = .ok split s') :
    ∃ (H' : Nat) (t : PageTree H'), Holds g s' retired [] t ∧ contents t.items = Function.update
          (contents (c.plug (.leaf id (around left k old right))).items) k (some v.bytes) := by
  have hcontents := hcut.contents_eq id old (some v)
  rcases putAtPath_cases hs hcut hheld hrun with ⟨-, hholds⟩ | ⟨-, H', t, hholds, hitems⟩
  · exact ⟨_, _, hholds, hcontents⟩
  · exact ⟨H', t, hholds, (hitems.contents_eq id).trans hcontents⟩

end Put

variable {found : Bool} (hs : Holds g s retired [] (c.plug (.leaf id (around left k old right))))
  (hcut : Cut c k left right) (hrun : deleteAtPath (c.pathIds.reverse ++ [id]) k s = .ok found s')

include hs hcut hrun

theorem deleteAtPath_eq_ok :
    ∃ fresh leaf leaf' s₁ s₂ u u' undo, touchLeaf id c.pathIds.reverse s = .ok (fresh, leaf) s₁
      ∧ Holds g s₁ retired [] (c.plug (.leaf id (around left k old right)))
      ∧ s₁.CachedAt id fresh leaf ∧ leaf'.records = leafRecords (around left k none right)
      ∧ leaf'.rightSibling = leaf.rightSibling ∧ setCachedLeaf id fresh leaf' s₁ = .ok u s₂
      ∧ releaseOld undo (old.map Stored.leafValue) s₂ = .ok u' s' ∧ found = old.isSome := by
  unfold deleteAtPath at hrun
  rw [getLast?_concat] at hrun
  dsimp only at hrun
  rw [dropLast_concat] at hrun
  obtain ⟨⟨fresh, leaf⟩, s₁, htouch, hrun⟩ := bind_eq_ok.mp hrun
  obtain ⟨h₁, hcached, hleaf, -⟩ := touchLeaf_spec hs htouch
  obtain ⟨hnew, hold⟩ := Leaf.remove_around hcut.around hleaf
  obtain ⟨_, s₂, hset, hrun⟩ := bind_eq_ok.mp hrun
  obtain ⟨_, s₃, hrelease, hrun⟩ := bind_eq_ok.mp hrun
  obtain ⟨rfl, rfl⟩ := pure_eq_ok.mp hrun
  exact ⟨fresh, leaf, _, s₁, s₂, _, _, _, htouch, h₁, hcached, hnew, rfl, hset, hold ▸ hrelease,
    by rw [hold, Option.isSome_map]⟩

/-- **Delete at the leaf of its key.**  Returns whether there was a record. -/
theorem deleteAtPath_spec :
    Holds g s' retired [] (c.plug (.leaf id (around left k none right))) ∧ found = old.isSome := by
  obtain ⟨fresh, leaf, leaf', s₁, s₂, _, _, undo, -, h₁, hcached, hnew, -, hset, hrelease, hfound⟩ :=
    deleteAtPath_eq_ok hs hcut hrun
  exact ⟨(h₁.edit none hcut hcached nofun hnew hset hrelease).1, hfound⟩

end Path

end Pagedb
