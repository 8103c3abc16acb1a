/-
  Pagedb.BTree.BulkRecords — the records of a bulk load.

  Between two records the loader holds a tower over the leaves written so far,
  and the records of the leaf under construction (`Loads`).  The projected size of
  that leaf is its encoded size, so a leaf is closed before it stops fitting and
  never later.

  Main results:
    * `projectedEncodedSize_eq` — the projected size is exact;
    * `closeLeaf_returns`  — a closed leaf is one more block of the read-out, and
      the leaf before it links to it;
    * `pushBatch_returns`, `pushBatch_rejected` — a batch is taken in whole, or the
      loader is as before.
-/
import Pagedb.BTree.BulkLevels
import Pagedb.BTree.LeafCodec
import Pagedb.BTree.Slices

namespace Pagedb

open Lib List

/-! ## §1. The size of a leaf -/

theorem sharedPrefix_starts (a : Bytes) :
    ∀ b : Bytes, a.take (sharedPrefix a b) <+: b ∧ sharedPrefix a b ≤ a.length := by
  induction a with
  | nil =>
    intro b
    exact ⟨by rw [take_nil]; exact nil_prefix, Nat.le_of_eq rfl⟩
  | cons x a ih =>
    intro b
    cases b with
    | nil => exact ⟨prefix_refl [], Nat.zero_le _⟩
    | cons y b =>
      obtain ⟨hpre, hlen⟩ := ih b
      by_cases hxy : x = y
      · subst hxy
        have hshared : sharedPrefix (x :: a) (x :: b) = sharedPrefix a b + 1 := by
          unfold sharedPrefix
          simp
        rw [hshared, take_succ_cons]
        exact ⟨cons_prefix_cons.mpr ⟨rfl, hpre⟩, Nat.succ_le_succ hlen⟩
      · have hshared : sharedPrefix (x :: a) (y :: b) = 0 := by
          unfold sharedPrefix
          simp [hxy]
        rw [hshared]
        exact ⟨List.nil_prefix, Nat.zero_le _⟩

theorem sharedPrefix_le_of_between {a j b : Bytes} (haj : a ≤ j) (hjb : j < b) :
    sharedPrefix a b ≤ j.length := by
  obtain ⟨hpre, hlen⟩ := sharedPrefix_starts a b
  have hle : a.take (sharedPrefix a b) ≤ j :=
    le_trans (prefix_le (List.take_prefix _ a)) haj
  have hj := (prefix_of_between hpre hle hjb).length_le
  rw [length_take, Nat.min_eq_left hlen] at hj
  exact hj

theorem sharedPrefix_le_right (a b : Bytes) : sharedPrefix a b ≤ b.length := by
  obtain ⟨hpre, hlen⟩ := sharedPrefix_starts a b
  have hb := hpre.length_le
  rw [length_take, Nat.min_eq_left hlen] at hb
  exact hb

theorem lcpLen_concat (r : Bytes × LeafValue) (records : Records) (s : Bytes × LeafValue) :
    lcpLen (r :: records ++ [s]) = sharedPrefix r.1 s.1 := by
  obtain ⟨first, v⟩ := r
  cases records with
  | nil => rfl
  | cons r' records =>
    show sharedPrefix first ((r' :: (records ++ [s])).getLast _).1 = _
    simp

theorem sum_stripped {p : Nat} {records : Records} (h : ∀ r ∈ records, p ≤ r.1.length) :
    (records.map (leafRecordSize p)).sum + records.length * (2 + p)
      = (records.map fun r => leafRecordCost r.1.length r.2).sum := by
  induction records with
  | nil => simp
  | cons r records ih =>
    have hr := h r mem_cons_self
    have ih' := ih fun s hs => h s (mem_cons_of_mem _ hs)
    rw [map_cons, map_cons, sum_cons, sum_cons, length_cons, ← ih', Nat.succ_mul]
    unfold leafRecordSize leafRecordCost
    omega

/-- **The projected size of a leaf is its encoded size.** -/
theorem projectedEncodedSize_eq {l : BulkLoader} {key : Bytes} {v : LeafValue}
    (hasc : Ascending (l.leafRecords ++ [(key, v)])) (hused : l.leafUsed
      = HEADER_LEN + (l.leafRecords.map fun r => leafRecordCost r.1.length r.2).sum) :
    projectedEncodedSize l key (leafRecordCost key.length v)
      = .ok (leafNeeded (l.leafRecords ++ [(key, v)])) := by
  unfold projectedEncodedSize
  rw [hused]
  cases hrecords : l.leafRecords with
  | nil =>
    -- a leaf of one record has its key for a prefix
    refine congrArg Except.ok ?_
    show HEADER_LEN + 0 + leafRecordCost key.length v = HEADER_LEN + key.length + 1 * 2
      + (2 + (key.length - key.length) + v.encodedSize + 0)
    unfold leafRecordCost
    omega
  | cons r records =>
    rw [hrecords] at hasc
    -- every key of the leaf has the bytes its first and its last key share
    have hp : ∀ x ∈ r :: records ++ [(key, v)], sharedPrefix r.1 key ≤ x.1.length := by
      intro x hx
      rcases mem_concat.mp hx with hx | rfl
      · have hxs := (pairwise_append.mp hasc).2.2 x hx _ (mem_singleton_self _)
        rcases mem_cons.mp hx with rfl | hx
        · exact (sharedPrefix_starts x.1 key).2
        · have hrx := (pairwise_cons.mp (pairwise_append.mp hasc).1).1 x hx
          exact sharedPrefix_le_of_between (le_of_lt hrx) hxs
      · exact sharedPrefix_le_right _ _
    have hsum := sum_stripped hp
    have hneeded : leafNeeded (r :: records ++ [(key, v)]) = HEADER_LEN + sharedPrefix r.1 key
        + ((r :: records).length + 1) * 2
        + (((r :: records).map (leafRecordSize (sharedPrefix r.1 key))).sum
          + leafRecordSize (sharedPrefix r.1 key) (key, v)) := by
      unfold leafNeeded
      rw [lcpLen_concat, length_append, length_singleton, map_append, sum_append, map_singleton,
        sum_singleton]
    rw [map_append, map_append, sum_append, sum_append, map_singleton, map_singleton, sum_singleton,
      sum_singleton, length_append, length_singleton, Nat.mul_add,
      Nat.succ_mul _ (sharedPrefix r.1 key)] at hsum
    dsimp only at hsum ⊢
    rw [hneeded, if_pos (by omega)]
    refine congrArg Except.ok ?_
    omega

theorem sliceFits_singleton {k : Bytes} {v : LeafValue} {pageSize : Nat}
    (h : singleRecordFitsEncoded k.length v.encodedSize pageSize = true) :
    sliceFits [(k, v)] pageSize = true := by
  have hsize := of_decide_eq_true (Bool.and_eq_true_iff.mp h).2
  refine decide_eq_true ?_
  show HEADER_LEN + k.length + 1 * 2 + (2 + (k.length - k.length) + v.encodedSize + 0) ≤ _
  omega

theorem leafValueFor_encodedSize {value : Bytes} {s s' : Session} {lv : LeafValue}
    (hrun : leafValueFor value s = .ok lv s') :
    lv.encodedSize = storedLeafValueEncodedSize value.length s.pageSize := by
  unfold leafValueFor at hrun
  rw [get_bind] at hrun
  unfold storedLeafValueEncodedSize
  split_ifs at hrun ⊢ with hbig
  · obtain ⟨root, t, -, hrun⟩ := bind_eq_ok.mp hrun
    obtain ⟨rfl, -⟩ := pure_eq_ok.mp hrun
    rfl
  · obtain ⟨rfl, -⟩ := pure_eq_ok.mp hrun
    rfl

/-! ## §2. Sibling links -/

/-- The leaves at `ids` link to the right, the last one to `next`. -/
def Session.Chained (s : Session) (next : PageId) : List PageId → Prop
  | [] => True
  | id :: ids => (∃ leaf, s.pager.page id = some (.leaf leaf)
      ∧ leaf.rightSibling = ids.head?.getD next) ∧ s.Chained next ids

namespace Session.Chained

variable {s s' : Session} {next : PageId} {ids : List PageId}

theorem congr (h : s.Chained next ids) (hsame : ∀ p ∈ ids, s'.pager.page p = s.pager.page p) :
    s'.Chained next ids := by
  induction ids with
  | nil => trivial
  | cons id ids ih =>
    obtain ⟨⟨leaf, hpage, hright⟩, hrest⟩ := h
    refine ⟨⟨leaf, ?_, hright⟩, ih hrest fun p hp => hsame p (mem_cons_of_mem _ hp)⟩
    exact (hsame id mem_cons_self).trans hpage

theorem kept {ws : List PageId} (h : s.Chained next ids) (ht : s.Touches ws s')
    (hids : ∀ id ∈ ids, id ∉ ws) : s'.Chained next ids :=
  h.congr fun p hp => ht.page (hids p hp)

theorem concat {id : PageId} {leaf : Leaf} (h : s.Chained id ids)
    (hpage : s.pager.page id = some (.leaf leaf)) : s.Chained leaf.rightSibling (ids ++ [id]) := by
  induction ids with
  | nil => exact ⟨⟨leaf, hpage, rfl⟩, trivial⟩
  | cons j ids ih =>
    obtain ⟨⟨leaf', hpage', hright⟩, hrest⟩ := h
    refine ⟨⟨leaf', hpage', ?_⟩, ih hrest⟩
    rw [hright]
    cases ids <;> rfl

end Session.Chained

/-! ## §3. Between two records -/

/-- The overflow pages of some records. -/
def pagesOf (records : List (Bytes × Stored)) : List PageId := records.flatMap fun r => r.2.pages

theorem pagesOf_append (a b : List (Bytes × Stored)) : pagesOf (a ++ b) = pagesOf a ++ pagesOf b :=
  flatMap_append

/-- The loader has written the leaves `blocks`, over which the tower stands, and
    holds the records `opened` of the next leaf.  `held` are pages it owns
    besides. -/
structure Loads (g : Surroundings) (retired held : List PageId) (st : Loading)
    (T : Tower PageId Bytes Stored 0) (blocks : List (List (Bytes × Stored)))
    (opened : List (Bytes × Stored)) : Prop where
  stacked : Stacked st.tree.pageSize T st.loader.levels
  counted : seen st.loader.levels = st.loader.leafCount
  items : T.items = blocks.flatMap block
  printed : ∀ e ∈ T.cells, st.tree.Printed e.1 e.2
  linked : st.tree.Chained (st.loader.leafPageId.getD 0) T.leafIds
  leaves : T.leafIds.length = st.loader.leafCount
  first : ∀ id ∈ T.leafIds.head?, id = st.loader.firstLeafPageId
  leaf : st.loader.leafRecords = leafRecords opened
  used : st.loader.leafUsed
    = HEADER_LEN + ((leafRecords opened).map fun r => leafRecordCost r.1.length r.2).sum
  fits : opened ≠ [] → sliceFits (leafRecords opened) st.tree.pageSize = true
  accepted : ∀ r ∈ blocks.flatten ++ opened, separatorFits r.1.length st.tree.pageSize = true
  values : ∀ r ∈ blocks.flatten ++ opened, r.2.Held st.tree.pager
  ledger : Ledger g.source st.tree (held ++ (T.ids ++ (st.loader.leafPageId.toList
    ++ (pagesOf (blocks.flatten ++ opened) ++ (retired ++ g.others)))))
  caches : Caches st.tree [] [] retired

section Between

variable {g : Surroundings} {retired held held' : List PageId} {st : Loading}
  {T : Tower PageId Bytes Stored 0} {blocks : List (List (Bytes × Stored))}
  {opened : List (Bytes × Stored)} {source : List PageId}

theorem Caches.kept {s s' : Session} {ws : List PageId} (h : Caches s [] [] retired)
    (ht : s.Touches ws s') : Caches s' [] [] retired := by
  obtain ⟨n, f, r, c, d, pager, rfl, -⟩ := ht
  exact ⟨h.fresh_mem, h.dirty_mem, h.apart, fun p hp => absurd (h.dirty_mem p hp) not_mem_nil,
    h.path_keys, h.path_mem, h.scheduled⟩

/-- What touches none of the loader's pages keeps what it holds. -/
theorem Loads.touch (hs : Loads g retired held st T blocks opened) {s' : Session} {ws : List PageId}
    (ht : st.tree.Touches ws s')
    (hl : Ledger g.source s' (held' ++ (T.ids ++ (st.loader.leafPageId.toList
      ++ (pagesOf (blocks.flatten ++ opened) ++ (retired ++ g.others))))))
    (hws : ws ⊆ held') : Loads g retired held' { st with tree := s' } T blocks opened where
  stacked := ht.pageSize.symm ▸ hs.stacked
  counted := hs.counted
  items := hs.items
  printed := by
    intro e he
    have hid := mem_map_of_mem (f := Prod.fst) he
    rw [Tower.cells_map_fst] at hid
    refine (hs.printed e he).kept ht fun hw => ?_
    exact disjoint_of_nodup_append hl.nodup (hws hw) (mem_append_left _ hid)
  linked := by
    refine hs.linked.kept ht fun p hp hw => ?_
    exact disjoint_of_nodup_append hl.nodup (hws hw) (mem_append_left _ (T.leafIds_subset hp))
  leaves := hs.leaves
  first := hs.first
  leaf := hs.leaf
  used := hs.used
  fits := ht.pageSize.symm ▸ hs.fits
  accepted := ht.pageSize.symm ▸ hs.accepted
  values := by
    intro r hr
    refine ht.held (hs.values r hr) fun p hp hw => ?_
    have hmem : p ∈ pagesOf (blocks.flatten ++ opened) := mem_flatMap.mpr ⟨r, hr, hp⟩
    exact disjoint_of_nodup_append hl.nodup (hws hw) (mem_append_right _
      (mem_append_right _ (mem_append_left _ hmem)))
  ledger := hl
  caches := hs.caches.kept ht

theorem Loads.used_eq (hs : Loads g retired held st T blocks opened) : st.loader.leafUsed
    = HEADER_LEN + (st.loader.leafRecords.map fun r => leafRecordCost r.1.length r.2).sum := by
  rw [hs.leaf]
  exact hs.used

theorem Loads.sep_fits (hs : Loads g retired held st T blocks opened) (j : Bytes)
    (hj : Item.sep j ∈ T.items) : separatorFits j.length st.tree.pageSize = true := by
  rw [hs.items] at hj
  obtain ⟨b, hb, hj⟩ := mem_flatMap.mp hj
  obtain ⟨r, hr, hkey⟩ := key_of_mem_block hj
  have hkey : j = r.1 := hkey
  rw [hkey]
  exact hs.accepted r (mem_append_left _ (mem_flatten.mpr ⟨b, hb, hr⟩))

/-- The page of the leaf under construction is the reserved one, or one nobody
    owned. -/
theorem takeLeafPage_returns {owned : List PageId}
    (hl : Ledger source st.tree (st.loader.leafPageId.toList ++ owned)) :
    Returns Loading.Clear takeLeafPage st fun id st' =>
      st'.loader = { st.loader with leafPageId := none } ∧ Ledger source st'.tree (id :: owned)
        ∧ st.tree.Touches [] st'.tree ∧ ∀ r, st.loader.leafPageId = some r → id = r := by
  unfold takeLeafPage
  refine Returns.get ?_
  cases hid : st.loader.leafPageId with
  | some r =>
    refine (stepLoader_returns _).bind ?_
    rintro _ _ rfl
    rw [hid] at hl
    exact Returns.pure ⟨rfl, hl, Session.Touches.refl _, fun r' hr => Option.some.inj hr⟩
  | none =>
    rw [hid] at hl
    refine (stepTree_returns ((allocatePage_ends hl).returns fun _ _ hrun =>
      hl.allocate hrun)).weaken ?_
    rintro id st' ⟨hloader, hl', ht⟩
    refine ⟨?_, hl', ht, nofun⟩
    rw [hloader, ← hid]

theorem reserveNext_returns {more : Bool} {owned : List PageId} (hl : Ledger source st.tree owned)
    (hnone : st.loader.leafPageId = none) :
    Returns Loading.Clear (reserveNext more) st fun next st' => ∃ reserved,
      st'.loader = { st.loader with leafPageId := reserved } ∧ reserved.getD 0 = next
        ∧ reserved.isSome = more ∧ Ledger source st'.tree (reserved.toList ++ owned)
        ∧ st.tree.Touches [] st'.tree := by
  unfold reserveNext
  cases more with
  | false =>
    refine Returns.pure ⟨none, ?_, rfl, rfl, hl, Session.Touches.refl _⟩
    rw [← hnone]
  | true =>
    refine (stepTree_returns ((allocatePage_ends hl).returns fun _ _ hrun =>
      hl.allocate hrun)).bind ?_
    rintro next st₁ ⟨hloader₁, hl₁, ht₁⟩
    refine (stepLoader_returns _).bind ?_
    rintro _ _ rfl
    refine Returns.pure ⟨some next, ?_, rfl, rfl, hl₁, ht₁⟩
    show { st₁.loader with leafPageId := some next } = _
    rw [hloader₁]

/-- **A leaf is closed**: its records become one more block of the read-out. -/
theorem closeLeaf_returns {more : Bool} (hs : Loads g retired held st T blocks opened)
    (hopen : opened ≠ []) (hres : st.loader.leafPageId = none → T.leafIds = []) :
    Returns Loading.Clear (closeLeaf more) st fun _ st' => ∃ T',
      Loads g retired held st' T' (blocks ++ [opened]) []
        ∧ st'.loader.lastKey = st.loader.lastKey ∧ st'.loader.leafPageId.isSome = more
        ∧ ∃ ws, st.tree.Touches ws st'.tree ∧ ∀ p ∈ held, p ∉ ws := by
  obtain ⟨r, records, rfl⟩ := exists_cons_of_ne_nil hopen
  unfold closeLeaf
  -- the leaf's own page
  have hl : Ledger g.source st.tree (st.loader.leafPageId.toList ++ (T.ids ++ (held
      ++ (pagesOf (blocks.flatten ++ r :: records) ++ (retired ++ g.others))))) :=
    hs.ledger.perm (by grind)
  refine (takeLeafPage_returns hl).bind ?_
  rintro id st₁ ⟨hloader₁, hl₁, ht₁, hid⟩
  -- the page of the leaf after it
  refine (reserveNext_returns hl₁ (by rw [hloader₁])).bind ?_
  rintro next st₂ ⟨reserved, hloader₂, hnext, hsome, hl₂, ht₂⟩
  refine Returns.get ?_
  have hloader : st₂.loader = { st.loader with leafPageId := reserved } := by
    rw [hloader₂, hloader₁]
  rw [hloader]
  dsimp only
  have hsize₂ : st₂.tree.pageSize = st.tree.pageSize := (ht₁.trans ht₂).pageSize
  refine (stepLoader_returns _).bind ?_
  rintro _ u hu
  have htree : u.tree = st₂.tree := by rw [hu]
  -- the leaf is written
  have hfits : Leaf.fits ⟨st.loader.leftSibling, next, st.loader.leafRecords⟩ u.tree.pageSize
      = true := by
    rw [htree, hsize₂]
    show sliceFits st.loader.leafRecords st.tree.pageSize = true
    rw [hs.leaf]
    exact hs.fits hopen
  refine (stepTree_returns ((writeLeaf_ends hfits).returns fun _ _ hrun =>
    writeLeaf_eq_ok hrun)).bind ?_
  rintro _ st₃ ⟨hloader₃, hwrite⟩
  rw [htree] at hwrite
  refine (stepTree_returns (flushIfDirtyBudget_returns st₃.tree)).bind ?_
  rintro _ st₄ ⟨hloader₄, hq⟩
  refine (stepLoader_returns _).bind ?_
  rintro _ w hw
  have ht : st.tree.Touches [id] st₄.tree := (((ht₁.trans ht₂).trans
    (writePage_touches hwrite)).trans (Session.Touches.of_quiet hq)).mono (by simp)
  have hl₄ : Ledger g.source st₄.tree (reserved.toList ++ (id :: (T.ids ++ (held
      ++ (pagesOf (blocks.flatten ++ r :: records) ++ (retired ++ g.others)))))) :=
    (writePage_ledger hl₂ hwrite).of_quiet hq
  have hpage : st₄.tree.pager.page id
      = some (.leaf ⟨st.loader.leftSibling, next, st.loader.leafRecords⟩) := by
    obtain ⟨pager, htree, hpage, -⟩ := writePage_eq_ok hwrite
    obtain ⟨faults, hquiet⟩ := hq
    rw [hquiet, htree]
    exact hpage
  have hsize : st₄.tree.pageSize = st.tree.pageSize := ht.pageSize
  have hfresh : ∀ p ∈ T.ids ++ (held ++ (pagesOf (blocks.flatten ++ r :: records)
      ++ (retired ++ g.others))), p ∉ [id] := by
    intro p hp hmem
    rw [mem_singleton.mp hmem] at hp
    exact (nodup_cons.mp hl₄.nodup.of_append_right).1 hp
  have hloader₅ : st₄.loader = { st.loader with leafPageId := reserved, leafRecords := [] } := by
    rw [hloader₄, hloader₃, hu, hloader]
  have hhead : (st.loader.leafRecords.head?.map Prod.fst).getD [] = r.1 := by
    rw [hs.leaf]
    rfl
  have hwtree : w.tree = st₄.tree := by rw [hw]
  have hwlevels : w.loader.levels = [] ++ st.loader.levels := by rw [hw, hloader₅]; rfl
  rw [← hwtree] at ht hl₄ hpage hsize
  rw [hhead]
  refine (@pushChild_returns 0 g.source T (.leaf id (r :: records)) r.1 [] st.loader.levels
    (reserved.toList ++ (held ++ (pagesOf (blocks.flatten ++ r :: records)
      ++ (retired ++ g.others)))) w hwlevels ?_ ?_ ?_ ?_ ?_).weaken ?_
  · rw [hsize]
    exact hs.accepted r (mem_append_right _ mem_cons_self)
  · rw [hsize]
    exact hs.sep_fits
  · rw [hsize]
    exact hs.stacked
  · intro e he
    rcases mem_concat.mp he with he | rfl
    · have hid := mem_map_of_mem (f := Prod.fst) he
      rw [Tower.cells_map_fst] at hid
      exact (hs.printed e he).kept ht (hfresh _ (mem_append_left _ hid))
    · exact ⟨_, hpage, hs.leaf, by rw [hsize, ← hsize₂, ← htree]; exact hfits⟩
  · exact hl₄.perm (by show List.Perm (T.ids ++ ([id] ++ _)) _; grind)
  · rintro _ st' ⟨T', as', hp⟩
    obtain ⟨ws, ht', hws⟩ := hp.kept
    have hleafIds : T'.leafIds = T.leafIds ++ [id] := hp.leaves
    have hloader' : st'.loader = { w.loader with levels := as' } := hp.loader
    have hsize' : st'.tree.pageSize = st.tree.pageSize := ht'.pageSize.trans hsize
    have hflat : (blocks ++ [r :: records]).flatten ++ [] = blocks.flatten ++ r :: records := by
      simp
    have hkept : ∀ p ∈ T.ids ++ (held ++ (pagesOf (blocks.flatten ++ r :: records)
        ++ (retired ++ g.others))), p ∉ [id] ++ ws := by
      intro p hp' hmem
      rcases mem_append.mp hmem with hmem | hmem
      · exact hfresh p hp' hmem
      · refine hws p ?_ hmem
        rcases mem_append.mp hp' with hp' | hp'
        · exact mem_append_left _ hp'
        · exact mem_append_right _ (mem_append_right _ (mem_append_right _ hp'))
    -- the leaf before this one links to it
    have hlink : w.tree.Chained id T.leafIds := by
      cases hlast : st.loader.leafPageId with
      | none =>
        rw [hres hlast]
        trivial
      | some r' =>
        have hlinked := hs.linked
        rw [hlast, Option.getD_some, ← hid r' hlast] at hlinked
        exact hlinked.kept ht fun p hp' => hfresh p (mem_append_left _ (T.leafIds_subset hp'))
    refine ⟨T', ⟨?_, ?_, ?_, hp.printed, ?_, ?_, ?_, ?_, ?_, fun hne => absurd rfl hne, ?_, ?_, ?_,
      (hs.caches.kept ht).kept ht'⟩, ?_, ?_, [id] ++ ws, ht.trans ht', fun p hp' =>
        hkept p (mem_append_right _ (mem_append_left _ hp'))⟩
    · rw [hsize', hloader', ← hsize]
      exact hp.stacked
    · rw [hloader', hw, hloader₅]
      show seen as' = st.loader.leafCount + 1
      rw [hp.seen, hs.counted]
    · rw [hp.items, hs.items, flatMap_append]
      show blocks.flatMap block ++ Item.sep r.1 :: entries (r :: records)
        = blocks.flatMap block ++ (block (r :: records) ++ [])
      rw [append_nil]
      rfl
    · rw [hleafIds, hloader', hw, hloader₅]
      show st'.tree.Chained (reserved.getD 0) (T.leafIds ++ [id])
      rw [hnext]
      refine (hlink.concat hpage).kept ht' fun p hp' => hws p ?_
      rcases mem_append.mp hp' with hp' | hp'
      · exact mem_append_left _ (T.leafIds_subset hp')
      · exact mem_append_right _ (mem_append_left _ hp')
    · rw [hleafIds, hloader', hw, hloader₅, length_append]
      show T.leafIds.length + 1 = st.loader.leafCount + 1
      rw [hs.leaves]
    · rw [hleafIds, hloader', hw, hloader₅]
      show ∀ p ∈ (T.leafIds ++ [id]).head?,
        p = if st.loader.leafCount = 0 then id else st.loader.firstLeafPageId
      rw [← hs.leaves]
      cases hids : T.leafIds with
      | nil =>
        intro p hp'
        exact (Option.some.inj hp').symm
      | cons p ids =>
        intro q hq'
        refine hs.first q ?_
        rw [hids]
        exact hq'
    · rw [hloader', hw, hloader₅]
      rfl
    · rw [hloader', hw, hloader₅]
      rfl
    · rw [hflat, hsize']
      exact hs.accepted
    · rw [hflat]
      intro x hx
      refine (ht.trans ht').held (hs.values x hx) fun p hp' => hkept p ?_
      refine mem_append_right _ (mem_append_right _ (mem_append_left _ ?_))
      exact mem_flatMap.mpr ⟨x, hx, hp'⟩
    · rw [hflat, hloader', hw, hloader₅]
      exact hp.ledger.perm (by grind)
    · rw [hloader', hw, hloader₅]
    · rw [hloader', hw, hloader₅]
      exact hsome

theorem leafRecords_concat (rs : List (Bytes × Stored)) (key : Bytes) (v : Stored) :
    leafRecords (rs ++ [(key, v)]) = leafRecords rs ++ [(key, v.leafValue)] := map_append

/-- A record is staged into the leaf under construction. -/
theorem Loads.stage {key : Bytes} {v : Stored} (hs : Loads g retired v.pages st T blocks opened)
    (hheld : v.Held st.tree.pager) (hkey : separatorFits key.length st.tree.pageSize = true)
    (hfits : sliceFits (leafRecords (opened ++ [(key, v)])) st.tree.pageSize = true) :
    Loads g retired [] { st with loader := { st.loader with
        leafUsed := st.loader.leafUsed + leafRecordCost key.length v.leafValue
        lastKey := some key
        leafRecords := st.loader.leafRecords ++ [(key, v.leafValue)] } }
      T blocks (opened ++ [(key, v)]) where
  stacked := hs.stacked
  counted := hs.counted
  items := hs.items
  printed := hs.printed
  linked := hs.linked
  leaves := hs.leaves
  first := hs.first
  leaf := by
    rw [leafRecords_concat, ← hs.leaf]
  used := by
    show st.loader.leafUsed + _ = _
    rw [hs.used, leafRecords_concat, map_append, sum_append, map_singleton, sum_singleton]
    exact Nat.add_assoc _ _ _
  fits := fun _ => hfits
  accepted := by
    intro r hr
    rw [← append_assoc] at hr
    rcases mem_concat.mp hr with hr | rfl
    · exact hs.accepted r hr
    · exact hkey
  values := by
    intro r hr
    rw [← append_assoc] at hr
    rcases mem_concat.mp hr with hr | rfl
    · exact hs.values r hr
    · exact hheld
  ledger := by
    refine hs.ledger.perm ?_
    rw [← append_assoc blocks.flatten, pagesOf_append (blocks.flatten ++ opened)]
    show ([] ++ (T.ids ++ (st.loader.leafPageId.toList ++ (pagesOf (blocks.flatten ++ opened)
      ++ (v.pages ++ []) ++ (retired ++ g.others))))).Perm _
    grind
  caches := hs.caches

end Between

/-! ## §4. Records one by one -/

/-- The record is accepted by `validate_insert_record_fits`. -/
def recordFits (pageSize : Nat) (r : Bytes × Bytes) : Bool :=
  singleRecordFitsEncoded r.1.length (storedLeafValueEncodedSize r.2.length pageSize) pageSize
    && separatorFits r.1.length pageSize

/-- The loader has taken in `records`: the leaves it has written, and the open one. -/
structure Takes (g : Surroundings) (retired : List PageId) (st : Loading)
    (records : List (Bytes × Bytes)) (T : Tower PageId Bytes Stored 0)
    (blocks : List (List (Bytes × Stored))) (opened : List (Bytes × Stored)) : Prop where
  loads : Loads g retired [] st T blocks opened
  taken : (blocks.flatten ++ opened).map Stored.record = records
  started : opened = [] → T.leafIds = [] ∧ st.loader.leafPageId = none
  reserved : st.loader.leafPageId = none → T.leafIds = []
  last : st.loader.lastKey = records.getLast?.map Prod.fst

/-- The loader has taken in `records`. -/
def Taken (g : Surroundings) (retired : List PageId) (st : Loading)
    (records : List (Bytes × Bytes)) : Prop :=
  ∃ T blocks opened, Takes g retired st records T blocks opened

section Records

variable {g : Surroundings} {retired : List PageId} {st : Loading} {records : List (Bytes × Bytes)}
  {T : Tower PageId Bytes Stored 0} {blocks : List (List (Bytes × Stored))}
  {opened : List (Bytes × Stored)}

theorem ascending_stored {rs : List (Bytes × Stored)} :
    Ascending (rs.map Stored.record) ↔ Ascending rs := by
  unfold Ascending
  rw [pairwise_map]
  rfl

theorem ascending_leafRecords {rs : List (Bytes × Stored)} (h : Ascending rs) :
    Ascending (leafRecords rs) := pairwise_map.mpr h

variable (hs : Takes g retired st records T blocks opened)

include hs

theorem Takes.opened_ascending (hasc : Ascending records) : Ascending st.loader.leafRecords := by
  rw [← hs.taken] at hasc
  rw [hs.loads.leaf]
  exact ascending_leafRecords (pairwise_append.mp (ascending_stored.mp hasc)).2.1

/-- A key above all keeps the open leaf in order. -/
theorem Takes.ascending {key : Bytes} {l : BulkLoader} {v : LeafValue} (hloader : l = st.loader)
    (hasc : Ascending records) (habove : ∀ r ∈ records, r.1 < key) :
    Ascending (l.leafRecords ++ [(key, v)]) := by
  rw [hloader]
  refine pairwise_append.mpr ⟨hs.opened_ascending hasc, pairwise_singleton _ _, fun r hr x hx => ?_⟩
  rw [hs.loads.leaf] at hr
  obtain ⟨y, hy, rfl⟩ := mem_map.mp hr
  rw [mem_singleton.mp hx]
  refine habove _ (hs.taken ▸ mem_map_of_mem (f := Stored.record) (mem_append_right _ hy))

/-- **A record is taken in**, into the open leaf or into a new one. -/
theorem appendRecord_returns {key value : Bytes}
    (hasc : Ascending (records ++ [(key, value)]))
    (hfits : recordFits st.tree.pageSize (key, value) = true) :
    Returns Loading.Clear (appendRecord key value) st fun _ st' =>
      Taken g retired st' (records ++ [(key, value)]) ∧ ∃ ws, st.tree.Touches ws st'.tree := by
  obtain ⟨hsingle, hsep⟩ := Bool.and_eq_true_iff.mp hfits
  have hl := hs.loads.ledger
  unfold appendRecord
  -- the value is stored first
  refine (stepTree_returns ((leafValueFor_ends hl hsingle).returns fun lv s' hrun =>
    (⟨leafValueFor_spec hl hrun, leafValueFor_encodedSize hrun⟩ :
      (∃ v : Stored, v.bytes = value ∧ v.leafValue = lv ∧ v.Held s'.pager
        ∧ Ledger g.source s' (v.pages ++ _) ∧ st.tree.Touches v.pages s') ∧ _))).bind ?_
  rintro lv st₁ ⟨hloader₁, ⟨v, rfl, rfl, hheld, hl₁, ht₁⟩, hsize⟩
  have h₁ : Loads g retired v.pages st₁ T blocks opened := by
    have h := hs.loads.touch ht₁ hl₁ (List.Subset.refl _)
    rwa [← hloader₁] at h
  have hpage₁ : st₁.tree.pageSize = st.tree.pageSize := ht₁.pageSize
  have hsep₁ : separatorFits key.length st₁.tree.pageSize = true := hpage₁.symm ▸ hsep
  have hone : sliceFits (leafRecords ([] ++ [(key, v)])) st₁.tree.pageSize = true := by
    rw [hpage₁]
    refine sliceFits_singleton ?_
    rw [hsize]
    exact hsingle
  -- whatever leaf is open by then, the record goes to its end
  have hstage : ∀ (st₂ : Loading) (T' : Tower PageId Bytes Stored 0)
      (blocks' : List (List (Bytes × Stored))) (opened' : List (Bytes × Stored)),
      Loads g retired v.pages st₂ T' blocks' opened' →
      (∃ ws, st₁.tree.Touches ws st₂.tree ∧ ∀ p ∈ v.pages, p ∉ ws) →
      sliceFits (leafRecords (opened' ++ [(key, v)])) st₁.tree.pageSize = true →
      blocks'.flatten ++ opened' = blocks.flatten ++ opened →
      (st₂.loader.leafPageId = none → T'.leafIds = []) →
      Returns Loading.Clear (stepLoader fun l => { l with
          leafUsed := l.leafUsed + leafRecordCost key.length v.leafValue
          lastKey := some key
          leafRecords := l.leafRecords ++ [(key, v.leafValue)] }) st₂ fun _ st' =>
        Taken g retired st' (records ++ [(key, v.bytes)]) ∧ ∃ ws, st.tree.Touches ws st'.tree := by
    intro st₂ T' blocks' opened' h₂ ht₂ hfits₂ hflat hres
    obtain ⟨ws, ht₂, hws⟩ := ht₂
    refine (stepLoader_returns _).weaken ?_
    rintro _ _ rfl
    rw [← ht₂.pageSize] at hfits₂
    refine ⟨⟨T', blocks', opened' ++ [(key, v)], h₂.stage (ht₂.held hheld hws)
      (ht₂.pageSize.symm ▸ hsep₁) hfits₂, ?_, ?_, hres, ?_⟩, _, ht₁.trans ht₂⟩
    · rw [← append_assoc, hflat, map_append, hs.taken]
      rfl
    · intro hnil
      exact absurd hnil (by simp)
    · rw [getLast?_concat]
      rfl
  refine Returns.get ?_
  dsimp only
  have hreserved : st₁.loader.leafPageId = none → T.leafIds = [] := hloader₁ ▸ hs.reserved
  obtain ⟨hrecords, -, habove⟩ := pairwise_append.mp hasc
  rw [projectedEncodedSize_eq (hs.ascending hloader₁ hrecords fun r hr =>
    habove r hr _ (mem_singleton_self _)) h₁.used_eq]
  dsimp only
  split_ifs with hfull
  · -- the leaf is full: it is closed, and the record opens the next one
    have hopen : opened ≠ [] := by
      rintro rfl
      rw [show st₁.loader.leafRecords = [] from h₁.leaf] at hfull
      simp at hfull
    refine (closeLeaf_returns h₁ hopen hreserved).bind ?_
    rintro _ st₂ ⟨T', h₂, -, hsome, hkept⟩
    refine hstage st₂ T' _ [] h₂ hkept hone (by simp) fun hnone => ?_
    rw [hnone] at hsome
    cases hsome
  · refine hstage st₁ T blocks opened h₁ ⟨[], Session.Touches.refl _, fun _ _ => not_mem_nil⟩ ?_
      rfl hreserved
    cases hopened : opened with
    | nil => exact hone
    | cons r rs =>
      rw [h₁.leaf, hopened] at hfull
      rw [leafRecords_concat]
      exact sliceFits_iff.mpr (Nat.le_of_not_lt fun hlt => hfull (by simpa [leafRecords] using hlt))

omit hs

theorem appendRecords_returns (batch : List (Bytes × Bytes)) :
    ∀ {st : Loading} {records : List (Bytes × Bytes)}, Taken g retired st records →
      Ascending (records ++ batch) → (∀ r ∈ batch, recordFits st.tree.pageSize r = true) →
      Returns Loading.Clear (appendRecords batch) st fun _ st' =>
        Taken g retired st' (records ++ batch) ∧ ∃ ws, st.tree.Touches ws st'.tree := by
  induction batch with
  | nil =>
    intro st records hs _ _
    refine Returns.pure ⟨?_, [], Session.Touches.refl _⟩
    rw [append_nil]
    exact hs
  | cons r batch ih =>
    intro st records hs hasc hfits
    obtain ⟨T, blocks, opened, hs⟩ := hs
    obtain ⟨key, value⟩ := r
    rw [append_cons] at hasc ⊢
    unfold appendRecords
    refine (appendRecord_returns hs (pairwise_append.mp hasc).1 (hfits _ mem_cons_self)).bind ?_
    rintro _ st₁ ⟨h₁, ws, ht₁⟩
    refine (ih h₁ hasc fun r hr => ?_).weaken ?_
    · rw [ht₁.pageSize]
      exact hfits r (mem_cons_of_mem _ hr)
    · rintro _ st₂ ⟨h₂, ws', ht₂⟩
      exact ⟨h₂, _, ht₁.trans ht₂⟩

/-- A key above the last key is above every key. -/
theorem any_lastKey_eq_false {records : List (Bytes × Bytes)} (hasc : Ascending records)
    (key : Bytes) : ((records.getLast?.map Prod.fst).any fun last => decide (key ≤ last)) = false
      ↔ ∀ r ∈ records, r.1 < key := by
  rcases eq_nil_or_concat records with rfl | ⟨init, last, rfl⟩
  · exact ⟨nofun, fun _ => rfl⟩
  · rw [concat_eq_append] at hasc ⊢
    rw [getLast?_concat, Option.map_some, Option.any_some, decide_eq_false_iff_not, not_le]
    constructor
    · intro hlt r hr
      rcases mem_concat.mp hr with hr | rfl
      · exact lt_trans ((pairwise_append.mp hasc).2.2 r hr last (mem_singleton_self _)) hlt
      · exact hlt
    · intro h
      exact h last mem_concat_self

/-- The order check is passed by what ascends from the last key on, and by nothing
    else. -/
theorem validateOrder_eq (batch : List (Bytes × Bytes)) :
    ∀ (records : List (Bytes × Bytes)) (s : Session), Ascending records →
      validateOrder (records.getLast?.map Prod.fst) batch s
        = if Ascending (records ++ batch) then .ok () s else .error .bulkLoadNotMonotonic s := by
  induction batch with
  | nil =>
    intro records s hasc
    rw [append_nil, if_pos hasc]
    rfl
  | cons r batch ih =>
    intro records s hasc
    obtain ⟨key, value⟩ := r
    unfold validateOrder
    cases hlast : (records.getLast?.map Prod.fst).any fun last => decide (key ≤ last) with
    | true =>
      have hnot : ¬ Ascending (records ++ (key, value) :: batch) := by
        intro h
        have hlt := (any_lastKey_eq_false hasc key).mpr fun r hr =>
          (pairwise_append.mp h).2.2 r hr _ mem_cons_self
        rw [hlt] at hlast
        cases hlast
      rw [if_neg hnot]
      rfl
    | false =>
      have hasc' : Ascending (records ++ [(key, value)]) := by
        refine pairwise_append.mpr ⟨hasc, pairwise_singleton _ _, ?_⟩
        intro r hr b hb
        rw [mem_singleton.mp hb]
        exact (any_lastKey_eq_false hasc key).mp hlast r hr
      have ih' := ih (records ++ [(key, value)]) s hasc'
      rw [getLast?_concat, ← append_cons] at ih'
      exact ih'

/-- The size check is passed by accepted records, and by nothing else. -/
theorem validateSizes_eq (batch : List (Bytes × Bytes)) (s : Session) :
    validateSizes batch s = if ∀ r ∈ batch, recordFits s.pageSize r = true then .ok () s
      else .error .payloadTooLarge s := by
  induction batch with
  | nil => rfl
  | cons r batch ih =>
    obtain ⟨key, value⟩ := r
    unfold validateSizes validateInsertRecordFits
    rw [bind_assoc, get_bind]
    dsimp only
    by_cases hfits : recordFits s.pageSize (key, value) = true
    · have hcond : (singleRecordFitsEncoded key.length
          (storedLeafValueEncodedSize value.length s.pageSize) s.pageSize
          && separatorFits key.length s.pageSize) = true := hfits
      rw [if_pos hcond, pure_bind, ih]
      simp only [mem_cons, forall_eq_or_imp, hfits, true_and]
    · have hcond : ¬ (singleRecordFitsEncoded key.length
          (storedLeafValueEncodedSize value.length s.pageSize) s.pageSize
          && separatorFits key.length s.pageSize) = true := hfits
      rw [if_neg hcond, if_neg fun h => hfits (h _ mem_cons_self)]
      rfl

theorem prevalidate_eq (batch : List (Bytes × Bytes)) (s : Session) (hasc : Ascending records) :
    prevalidate (records.getLast?.map Prod.fst) batch s = if Ascending (records ++ batch) then
          if ∀ r ∈ batch, recordFits s.pageSize r = true then .ok () s
          else .error .payloadTooLarge s
        else .error .bulkLoadNotMonotonic s := by
  have horder := validateOrder_eq batch records s hasc
  unfold prevalidate
  by_cases hall : Ascending (records ++ batch)
  · rw [if_pos hall] at horder ⊢
    rw [bind_of_ok horder, validateSizes_eq]
  · rw [if_neg hall] at horder ⊢
    exact bind_of_error horder

/-- **A batch that ascends and fits is taken in.** -/
theorem pushBatch_returns {batch : List (Bytes × Bytes)} (hs : Taken g retired st records)
    (hasc : Ascending (records ++ batch)) (hfits : ∀ r ∈ batch, recordFits st.tree.pageSize r = true) :
    Returns Loading.Clear (pushBatch batch) st fun _ st' =>
      Taken g retired st' (records ++ batch) ∧ ∃ ws, st.tree.Touches ws st'.tree := by
  unfold pushBatch
  refine Returns.get ?_
  have hlast : st.loader.lastKey = records.getLast?.map Prod.fst := by
    obtain ⟨T, blocks, opened, hs⟩ := hs
    exact hs.last
  have hvalid : prevalidate st.loader.lastKey batch st.tree = .ok () st.tree := by
    rw [hlast, prevalidate_eq batch st.tree (pairwise_append.mp hasc).1, if_pos hasc, if_pos hfits]
  have hpass : Returns Session.Clear (prevalidate st.loader.lastKey batch) st.tree
      fun _ s' => s' = st.tree :=
    Ends.returns (fun hclear => ⟨(), st.tree, hvalid, hclear⟩) fun _ s' hrun => by
      rw [hvalid] at hrun
      cases hrun
      rfl
  refine (stepTree_returns hpass).bind ?_
  rintro _ st₁ ⟨hloader, htree⟩
  have hst : st₁ = st := by
    obtain ⟨tree, loader⟩ := st₁
    cases hloader
    cases htree
    rfl
  subst hst
  refine (appendRecords_returns batch hs hasc hfits).bind ?_
  rintro _ st₂ ⟨h₂, ws, ht₂⟩
  refine (stepTree_returns (flushIfDirtyBudget_returns st₂.tree)).weaken ?_
  rintro _ st₃ ⟨hloader₃, hq⟩
  obtain ⟨T, blocks, opened, h₂⟩ := h₂
  have ht₃ := Session.Touches.of_quiet hq
  refine ⟨⟨T, blocks, opened, ?_, h₂.taken, hloader₃ ▸ h₂.started, ?_, ?_⟩, _, ht₂.trans ht₃⟩
  · have h := h₂.loads.touch ht₃ (h₂.loads.ledger.of_quiet hq) (nil_subset _)
    rwa [← hloader₃] at h
  · rw [hloader₃]
    exact h₂.reserved
  · rw [hloader₃]
    exact h₂.last

/-- **A batch out of order or too large changes nothing.** -/
theorem pushBatch_rejected {batch : List (Bytes × Bytes)} (hs : Taken g retired st records)
    (hasc : Ascending records)
    (hbad : ¬ (Ascending (records ++ batch) ∧ ∀ r ∈ batch, recordFits st.tree.pageSize r = true)) :
    ∃ e, (e = .bulkLoadNotMonotonic ∨ e = .payloadTooLarge) ∧ pushBatch batch st = .error e st := by
  have hlast : st.loader.lastKey = records.getLast?.map Prod.fst := by
    obtain ⟨T, blocks, opened, hs⟩ := hs
    exact hs.last
  have hvalid := prevalidate_eq batch st.tree hasc
  rw [← hlast] at hvalid
  unfold pushBatch
  rw [get_bind]
  have hstop : ∀ e, prevalidate st.loader.lastKey batch st.tree = .error e st.tree →
      (stepTree (prevalidate st.loader.lastKey batch) >>= fun _ => do
        appendRecords batch
        stepTree flushIfDirtyBudget) st = .error e st := by
    intro e he
    refine bind_of_error ?_
    unfold stepTree
    rw [he]
  by_cases hall : Ascending (records ++ batch)
  · have hsizes : ¬ ∀ r ∈ batch, recordFits st.tree.pageSize r = true := fun h => hbad ⟨hall, h⟩
    rw [if_pos hall, if_neg hsizes] at hvalid
    exact ⟨_, Or.inr rfl, hstop _ hvalid⟩
  · rw [if_neg hall] at hvalid
    exact ⟨_, Or.inl rfl, hstop _ hvalid⟩

theorem pushBatches_returns (batches : List (List (Bytes × Bytes))) :
    ∀ {st : Loading} {records : List (Bytes × Bytes)}, Taken g retired st records →
      Ascending (records ++ batches.flatten) →
      (∀ r ∈ batches.flatten, recordFits st.tree.pageSize r = true) →
      Returns Loading.Clear (pushBatches batches) st fun _ st' =>
        Taken g retired st' (records ++ batches.flatten) ∧ ∃ ws, st.tree.Touches ws st'.tree := by
  induction batches with
  | nil =>
    intro st records hs _ _
    refine Returns.pure ⟨?_, [], Session.Touches.refl _⟩
    rw [flatten_nil, append_nil]
    exact hs
  | cons batch batches ih =>
    intro st records hs hasc hfits
    rw [flatten_cons] at hasc hfits ⊢
    rw [← append_assoc] at hasc ⊢
    unfold pushBatches
    refine (pushBatch_returns hs (pairwise_append.mp hasc).1 fun r hr =>
      hfits r (mem_append_left _ hr)).bind ?_
    rintro _ st₁ ⟨h₁, ws, ht₁⟩
    refine (ih h₁ hasc fun r hr => ?_).weaken ?_
    · rw [ht₁.pageSize]
      exact hfits r (mem_append_right _ hr)
    · rintro _ st₂ ⟨h₂, ws', ht₂⟩
      exact ⟨h₂, _, ht₁.trans ht₂⟩

end Records

end Pagedb
