/-
  Pagedb.BTree.Flush — the flush moves the tree and changes nothing in it
  (`flush_dirty_leaves`).

  Fresh leaves are written where they are.  Dirty leaves go to new pages, and
  so does every branch above one, deepest first; each new page is entered in a
  redirect table, and a branch is rewritten through the table as it is then.

    * `writeFreshLeaves_spec`  — the fresh leaves become pages;
    * `rewriteSpine_spec`      — every branch above a dirty leaf has moved;
    * `flushDirtyLeaves_spec`  — the session shows the same tree at the
      redirected addresses, with empty caches.
-/
import Pagedb.BTree.Insert
import Pagedb.Lib.TreePaths

namespace Pagedb

open Lib List

variable {H : Nat} {g : Surroundings} {s s' : Session} {retired held : List PageId}
  {t : PageTree H}

/-! ## §1. Fresh leaves -/

/-- A fresh leaf that was written at its own id may leave the cache. -/
theorem Holds.writeFresh {fresh : Table PageId Leaf} {id : PageId} {leaf : Leaf} {pager : Pager}
    (hs : Holds g { s with freshLeaves := fresh } retired held t)
    (hleaf : fresh.lookup id = some leaf) (hpage : pager.page id = some (.leaf leaf))
    (hsame : ∀ p, p ≠ id → pager.page p = s.pager.page p) :
    Holds g { s with freshLeaves := fresh.erase id, pager := pager } retired held t := by
  have hc := hs.live.caches
  have hin : id ∈ fresh := AList.lookup_isSome.mp (by rw [hleaf]; rfl)
  have hmem : id ∈ t.ids := hc.fresh_mem id hin
  have hvalue : ∀ p ∈ valuePages t.items, p ≠ id := by
    rintro p hp rfl
    refine disjoint_of_nodup_append hs.live.ledger.nodup.of_append_right hmem ?_
    exact mem_append_left _ hp
  refine ⟨⟨⟨fun p hp => hc.fresh_mem p (AList.mem_erase.mp hp).2, hc.dirty_mem,
    fun p hp => hc.apart p (AList.mem_erase.mp hp).2, fun p hp => ?_, hc.path_keys, hc.path_mem,
    hc.scheduled⟩, hs.live.ordered, fun r hr => ?_, ?_⟩, ?_, hs.root⟩
  · obtain ⟨l, hl⟩ := hc.paged p hp
    have hne : p ≠ id := fun heq => hc.apart id hin (heq ▸ hp)
    exact ⟨l, (hsame p hne).trans hl⟩
  · refine (hs.live.values r hr).congr fun p hp => hsame p (hvalue p ?_)
    exact mem_flatMap.mpr ⟨r, hr, hp⟩
  · exact ⟨hs.live.ledger.four, hs.live.ledger.law, hs.live.ledger.drawn⟩
  · refine hs.rep.congr fun p _ c hshow => ?_
    have hlook : Session.look { s with freshLeaves := fresh.erase id, pager := pager } p
        = Session.look { s with freshLeaves := fresh } p := by
      by_cases hp : p = id
      · subst hp
        have hd : s.dirtyLeaves.lookup p = none :=
          AList.lookup_eq_none.mpr (hc.apart p hin)
        have hnew : Session.look { s with freshLeaves := fresh.erase p, pager := pager } p
            = (pager.page p).bind Page.node? :=
          Session.look_page (s := { s with freshLeaves := fresh.erase p, pager := pager })
            (AList.lookup_erase _ _) hd
        have hold : Session.look { s with freshLeaves := fresh } p = some (.inl leaf.records) :=
          Session.look_fresh (s := { s with freshLeaves := fresh }) hleaf
        rw [hnew, hold, hpage]
        rfl
      · unfold Session.look
        dsimp only
        rw [AList.lookup_erase_ne hp, hsame p hp]
    cases c <;> exact hlook.trans hshow

/-- **The drained fresh leaves become pages.** -/
theorem writeFreshLeaves_spec (rows : List (PageId × Leaf)) :
    ∀ {s s' : Session} {fresh : Table PageId Leaf} {u : Unit},
      Holds g { s with freshLeaves := fresh } retired held t →
      (∀ p leaf, fresh.lookup p = some leaf ↔ (p, leaf) ∈ rows) → (rows.map Prod.fst).Nodup →
      s.freshLeaves = ∅ → writeFreshLeaves rows s = .ok u s' →
      Holds g s' retired held t ∧ s'.freshLeaves = ∅ ∧ s'.dirtyLeaves = s.dirtyLeaves
        ∧ s'.dirtyParentPaths = s.dirtyParentPaths := by
  induction rows with
  | nil =>
    intro s s' fresh u hs hrows _ hempty hrun
    obtain ⟨-, rfl⟩ := pure_eq_ok.mp hrun
    have hfresh : fresh = ∅ := by
      refine AList.ext ?_
      refine eq_nil_iff_forall_not_mem.mpr fun e he => ?_
      have hl := (AList.mem_lookup_iff).mpr he
      exact absurd ((hrows e.1 e.2).mp hl) not_mem_nil
    subst hfresh
    rw [← hempty] at hs
    exact ⟨hs, hempty, rfl, rfl⟩
  | cons row rows ih =>
    intro s s' fresh u hs hrows hnodup hempty hrun
    obtain ⟨id, leaf⟩ := row
    obtain ⟨_, w, hwrite, hrun⟩ := bind_eq_ok.mp hrun
    obtain ⟨hnotin, hnodup⟩ := nodup_cons.mp hnodup
    obtain ⟨pager, rfl, hpage, hsame⟩ := writePage_eq_ok (writeLeaf_eq_ok hwrite)
    have hleaf : fresh.lookup id = some leaf := (hrows id leaf).mpr mem_cons_self
    have hstep := hs.writeFresh hleaf hpage hsame
    refine ih (s := { s with pager := pager }) hstep ?_ hnodup hempty hrun
    intro p l
    by_cases hp : p = id
    · subst hp
      rw [AList.lookup_erase]
      constructor
      · intro h; cases h
      · intro h; exact absurd (mem_map_of_mem h) hnotin
    · rw [AList.lookup_erase_ne hp, hrows p l]
      constructor
      · intro h
        rcases mem_cons.mp h with heq | h
        · exact absurd (Prod.mk.inj heq).1 hp
        · exact h
      · exact mem_cons_of_mem _

/-! ## §2. The redirect table -/

/-- Where a redirect table sends an id. -/
def redirected (redirects : Table PageId PageId) (p : PageId) : PageId :=
  (redirects.lookup p).getD p

/-- The new pages of a redirect table. -/
def newPages (redirects : Table PageId PageId) : List PageId := redirects.toList.map Prod.snd

variable {redirects : Table PageId PageId} {p new : PageId}

theorem redirected_of_lookup (h : redirects.lookup p = some new) :
    redirected redirects p = new := by
  unfold redirected
  rw [h]
  rfl

theorem redirected_of_notMem (h : p ∉ redirects) : redirected redirects p = p := by
  unfold redirected
  rw [AList.lookup_eq_none.mpr h]
  rfl

theorem newPages_insert (h : p ∉ redirects) :
    newPages (redirects.insert p new) = new :: newPages redirects := by
  unfold newPages Table.toList
  rw [AList.entries_insert_of_notMem h]
  rfl

theorem mem_newPages (h : redirects.lookup p = some new) : new ∈ newPages redirects :=
  mem_map.mpr ⟨(p, new), Table.mem_toList.mpr h, rfl⟩

theorem Internal.redirect_insert {node : Internal} (h : p ∉ node.children) :
    node.redirect (redirects.insert p new) = node.redirect redirects := by
  unfold Internal.redirect
  have hlookup : ∀ q ∈ node.children, (redirects.insert p new).lookup q = redirects.lookup q :=
    fun q hq => AList.lookup_insert_ne fun heq => h (heq ▸ hq)
  rw [hlookup _ mem_cons_self]
  congr 1
  refine map_congr_left fun e he => ?_
  rw [hlookup _ (mem_cons_of_mem _ (mem_map_of_mem he))]

/-- **Moving a tree gives its old addresses back**: with the new pages at hand,
    the renamed tree and the redirected old addresses. -/
theorem rename_ids_perm {ids : List PageId} (hnodup : ids.Nodup) (hkeys : ∀ p ∈ redirects, p ∈ ids) :
    (newPages redirects ++ ids).Perm (ids.map (redirected redirects) ++ redirects.keys) := by
  have hsplit : ids.Perm (redirects.keys ++ ids.filter fun p => decide (p ∉ redirects)) := by
    refine (perm_ext_iff_of_nodup hnodup ?_).mpr fun p => ?_
    · refine nodup_append.mpr ⟨redirects.keys_nodup, hnodup.filter _, ?_⟩
      rintro p hp q hq rfl
      exact of_decide_eq_true (mem_filter.mp hq).2 (AList.mem_keys.mpr hp)
    · rw [mem_append, mem_filter, ← AList.mem_keys, decide_eq_true_iff]
      constructor
      · intro hp
        by_cases hmem : p ∈ redirects
        · exact Or.inl hmem
        · exact Or.inr ⟨hp, hmem⟩
      · rintro (hp | hp)
        · exact hkeys p hp
        · exact hp.1
  have hmap : (redirects.keys.map (redirected redirects)) = newPages redirects := by
    unfold newPages
    rw [← Table.toList_map_fst, map_map]
    refine map_congr_left fun e he => ?_
    exact redirected_of_lookup (Table.mem_toList.mp he)
  have hid : (ids.filter fun p => decide (p ∉ redirects)).map (redirected redirects)
      = ids.filter fun p => decide (p ∉ redirects) := by
    refine (map_congr_left fun p hp => ?_).trans (map_id _)
    exact redirected_of_notMem (of_decide_eq_true (mem_filter.mp hp).2)
  have hrenamed := hsplit.map (redirected redirects)
  rw [map_append, hmap, hid] at hrenamed
  refine (hsplit.append_left _).trans (List.Perm.trans ?_ (hrenamed.symm.append_right _))
  rw [append_assoc]
  exact perm_append_comm.append_left _

/-! ## §3. Dirty leaves -/

/-- **The drained dirty leaves go to new pages**, entered in the table. -/
theorem writeDirtyLeaves_spec {source owned : List PageId} (rows : List (PageId × Leaf)) :
    ∀ {s s' : Session} {redirects redirects' : Table PageId PageId},
      Ledger source s (newPages redirects ++ owned) → (rows.map Prod.fst).Nodup →
      (∀ e ∈ rows, e.1 ∉ redirects) → writeDirtyLeaves rows redirects s = .ok redirects' s' →
      Ledger source s' (newPages redirects' ++ owned) ∧ s.Touches (newPages redirects') s'
        ∧ redirects'.keys.Perm (rows.map Prod.fst ++ redirects.keys)
        ∧ (∀ e ∈ rows, ∃ new, redirects'.lookup e.1 = some new
          ∧ s'.pager.page new = some (.leaf e.2))
        ∧ ∀ p new, redirects.lookup p = some new → redirects'.lookup p = some new
          ∧ s'.pager.page new = s.pager.page new := by
  induction rows with
  | nil =>
    intro s s' redirects redirects' hl _ _ hrun
    obtain ⟨rfl, rfl⟩ := pure_eq_ok.mp hrun
    exact ⟨hl, (Session.Touches.refl s).mono (nil_subset _), List.Perm.refl _,
      nofun, fun p new h => ⟨h, rfl⟩⟩
  | cons row rows ih =>
    intro s s' redirects redirects' hl hnodup hout hrun
    obtain ⟨old, leaf⟩ := row
    obtain ⟨new, t, halloc, hrun⟩ := bind_eq_ok.mp hrun
    obtain ⟨_, w, hwrite, hrun⟩ := bind_eq_ok.mp hrun
    have hwrite := writeLeaf_eq_ok hwrite
    obtain ⟨hnotin, hnodup⟩ := nodup_cons.mp hnodup
    have hold : old ∉ redirects := hout (old, leaf) mem_cons_self
    obtain ⟨hlt, htt⟩ := hl.allocate halloc
    have hlw : Ledger source w (newPages (redirects.insert old new) ++ owned) := by
      rw [newPages_insert hold]
      exact writePage_ledger hlt hwrite
    have hnew : new ∉ newPages redirects := fun hmem =>
      (nodup_cons.mp hlt.nodup).1 (mem_append_left _ hmem)
    have htw := htt.trans (writePage_touches hwrite)
    obtain ⟨hls, hts, hkeys, hrows, hext⟩ := ih hlw hnodup (by
      intro e he hmem
      rcases (AList.mem_insert _).mp hmem with heq | hmem
      · refine hnotin (mem_map.mpr ⟨e, he, heq⟩)
      · exact hout e (mem_cons_of_mem _ he) hmem) hrun
    obtain ⟨hlookup, hpage⟩ := hext old new (AList.lookup_insert _)
    refine ⟨hls, (htw.trans hts).mono ?_, ?_, ?_, ?_⟩
    · intro p hp
      rcases mem_append.mp hp with hp | hp
      · rw [mem_singleton.mp hp]
        exact mem_newPages hlookup
      · exact hp
    · rw [Table.keys_insert_new hold] at hkeys
      exact hkeys.trans perm_middle
    · intro e he
      rcases mem_cons.mp he with rfl | he
      · refine ⟨new, hlookup, hpage.trans ?_⟩
        obtain ⟨pager, rfl, hwritten, -⟩ := writePage_eq_ok hwrite
        exact hwritten
      · exact hrows e he
    · intro p q hq
      have hne : p ≠ old := by
        rintro rfl
        exact hold (AList.lookup_isSome.mp (by rw [hq]; rfl))
      obtain ⟨hlookup', hpage'⟩ := hext p q (by rw [AList.lookup_insert_ne hne]; exact hq)
      refine ⟨hlookup', hpage'.trans (htw.page ?_)⟩
      intro hmem
      rw [mem_singleton.mp hmem] at hq
      exact hnew (mem_newPages hq)

/-! ## §4. The spine -/

/-- The page `x` lies at index `j` of the way down to a dirty leaf. -/
def OnPath (rows : List (PageId × List PageId)) (j : Nat) (x : PageId) : Prop :=
  ∃ l ∈ rows, (fullPath l)[j]? = some x

theorem fullPath_getElem? {l : PageId × List PageId} {d : Nat} {x : PageId}
    (hx : l.2[d]? = some x) : (fullPath l)[d]? = some x := by
  unfold fullPath
  rw [getElem?_append_left (List.getElem?_eq_some_iff.mp hx).1]
  exact hx

theorem mem_internalsAtDepth {rows : List (PageId × List PageId)} {d : Nat} {x : PageId} :
    x ∈ internalsAtDepth (rows.map Prod.snd) d ↔ ∃ l ∈ rows, l.2[d]? = some x := by
  unfold internalsAtDepth
  rw [mem_mergeSort, mem_dedup, mem_filterMap]
  constructor
  · rintro ⟨path, hpath, hx⟩
    obtain ⟨l, hl, rfl⟩ := mem_map.mp hpath
    exact ⟨l, hl, hx⟩
  · rintro ⟨l, hl, hx⟩
    exact ⟨l.2, mem_map_of_mem hl, hx⟩

theorem internalsAtDepth_nodup (paths : List (List PageId)) (d : Nat) :
    (internalsAtDepth paths d).Nodup :=
  (mergeSort_perm _ _).nodup_iff.mpr (nodup_dedup _)

/-- The flush between two branches: `base` is the session when the caches were
    drained, `frees` are the branches that have moved. -/
structure Flushing (g : Surroundings) (retired : List PageId) (t : PageTree H) (base : Session)
    (dirty : Table PageId Leaf) (rows : List (PageId × List PageId)) (s : Session)
    (redirects : Table PageId PageId) (frees : List PageId) : Prop where
  ledger : Ledger g.source s
    (newPages redirects ++ (t.ids ++ (valuePages t.items ++ (retired ++ g.others))))
  touches : base.Touches (newPages redirects) s
  keys : redirects.keys.Perm (frees ++ dirty.keys)
  leaves : ∀ p leaf, dirty.lookup p = some leaf →
    ∃ new, redirects.lookup p = some new ∧ s.pager.page new = some (.leaf leaf)
  nodes : ∀ x ∈ frees, ∃ node new, base.pager.page x = some (.internal node)
    ∧ redirects.lookup x = some new ∧ s.pager.page new = some (.internal (node.redirect redirects))
    ∧ ∀ c ∈ node.children, (∃ j, OnPath rows j c) → c ∈ redirects

/-- What the drained caches say about the tree. -/
structure Drained (t : PageTree H) (base : Session) (rows : List (PageId × List PageId)) : Prop where
  nodup : t.ids.Nodup
  rows_mem : ∀ l ∈ rows, l ∈ t.leafPaths
  branches : ∀ p first rest, (p, Cell.branch first rest) ∈ t.cells →
    base.pager.page p = some (.internal ⟨first, rest⟩)

namespace Drained

variable {base : Session} {rows : List (PageId × List PageId)} {d : Nat} {x : PageId}

/-- A branch on a path: its page, the next page on the path among its children,
    and no other depth for its children on any path. -/
theorem branch (hd : Drained t base rows) {l : PageId × List PageId} (hl : l ∈ rows)
    (hx : l.2[d]? = some x) :
    ∃ node : Internal, base.pager.page x = some (.internal node)
      ∧ (∃ y ∈ node.children, OnPath rows (d + 1) y)
      ∧ ∀ c ∈ node.children, ∀ j, OnPath rows j c → j = d + 1 := by
  have hlt : d < l.2.length := (List.getElem?_eq_some_iff.mp hx).1
  have hfull := fullPath_getElem? hx
  obtain ⟨y, hy⟩ : ∃ y, (fullPath l)[d + 1]? = some y := by
    refine ⟨_, getElem?_eq_getElem ?_⟩
    unfold fullPath
    rw [length_append, length_singleton]
    omega
  obtain ⟨c, hc, hyc⟩ := Node.path_links (hd.rows_mem l hl) hfull hy
  cases c with
  | leaf records => cases hyc
  | branch first rest =>
    refine ⟨⟨first, rest⟩, hd.branches x first rest hc, ⟨y, hyc, l, hl, hy⟩, ?_⟩
    rintro c' hc' j ⟨l', hl', hj⟩
    obtain ⟨i, rfl, hi⟩ := Node.parent_on_path hd.nodup (hd.rows_mem l' hl') hc hc' hj
    rw [Node.depth_unique hd.nodup (hd.rows_mem l' hl') (hd.rows_mem l hl) hi hfull]

end Drained

section Spine

variable {base : Session} {dirty : Table PageId Leaf} {rows : List (PageId × List PageId)}

/-- One branch of the spine moves. -/
theorem Flushing.move {redirects : Table PageId PageId} {frees : List PageId} {old new : PageId}
    {node : Internal} {q v w : Session} {u : Unit}
    (hf : Flushing g retired t base dirty rows s redirects frees) (hold : old ∉ redirects)
    (hpage : base.pager.page old = some (.internal node)) (hq : s.Quiet q)
    (hpath : ∃ j, OnPath rows j old)
    (hclosed : ∀ c ∈ node.children, (∃ j, OnPath rows j c) → c ∈ redirects)
    (halloc : allocatePage q = .ok new v)
    (hwrite : writePage new (.internal (node.redirect redirects)) v = .ok u w) :
    Flushing g retired t base dirty rows w (redirects.insert old new) (frees ++ [old]) := by
  obtain ⟨hlv, htv⟩ := (hf.ledger.of_quiet hq).allocate halloc
  have htw : s.Touches [new] w :=
    ((Session.Touches.of_quiet hq).trans htv).trans (writePage_touches hwrite)
  have hnew : new ∉ newPages redirects := fun hmem =>
    (nodup_cons.mp hlv.nodup).1 (mem_append_left _ hmem)
  have hkept : ∀ {p m : PageId}, redirects.lookup p = some m →
      (redirects.insert old new).lookup p = some m ∧ w.pager.page m = s.pager.page m := by
    intro p m hm
    refine ⟨?_, htw.page fun hmem => hnew (mem_singleton.mp hmem ▸ mem_newPages hm)⟩
    rw [AList.lookup_insert_ne]
    · exact hm
    · rintro rfl
      exact hold (AList.lookup_isSome.mp (by rw [hm]; rfl))
  refine ⟨?_, ?_, ?_, ?_, ?_⟩
  · rw [newPages_insert hold]
    exact writePage_ledger hlv hwrite
  · rw [newPages_insert hold]
    refine (hf.touches.trans htw).mono fun p hp => ?_
    rcases mem_append.mp hp with hp | hp
    · exact mem_cons_of_mem _ hp
    · exact mem_singleton.mp hp ▸ mem_cons_self
  · rw [Table.keys_insert_new hold]
    have := hf.keys
    grind
  · intro p leaf hleaf
    obtain ⟨m, hm, hpagem⟩ := hf.leaves p leaf hleaf
    obtain ⟨hm', hsame⟩ := hkept hm
    exact ⟨m, hm', hsame.trans hpagem⟩
  · intro x hx
    rcases mem_concat.mp hx with hx | rfl
    · obtain ⟨nx, m, hbase, hm, hpagem, hcl⟩ := hf.nodes x hx
      obtain ⟨hm', hsame⟩ := hkept hm
      -- a branch that moved earlier does not link to one that moves later
      have hlink : old ∉ nx.children := fun hmem => hold (hcl old hmem hpath)
      refine ⟨nx, m, hbase, hm', ?_, fun c hc hj => ?_⟩
      · rw [hsame, hpagem, Internal.redirect_insert hlink]
      · exact (AList.mem_insert _).mpr (Or.inr (hcl c hc hj))
    · have hlink : x ∉ node.children := fun hmem => hold (hclosed x hmem hpath)
      refine ⟨node, new, hpage, AList.lookup_insert _, ?_, fun c hc hj => ?_⟩
      · rw [Internal.redirect_insert hlink]
        obtain ⟨pager, rfl, hwritten, -⟩ := writePage_eq_ok hwrite
        exact hwritten
      · exact (AList.mem_insert _).mpr (Or.inr (hclosed c hc hj))

/-- All branches of one depth move. -/
theorem rewriteInternals_spec (hd : Drained t base rows) (d : Nat) (ids : List PageId) :
    ∀ {s s' : Session} {redirects redirects' : Table PageId PageId} {frees frees' : List PageId},
      Flushing g retired t base dirty rows s redirects frees →
      (∀ j, d < j → ∀ x, OnPath rows j x → x ∈ redirects) → ids.Nodup →
      (∀ x ∈ ids, x ∉ redirects ∧ ∃ l ∈ rows, l.2[d]? = some x) →
      rewriteInternals ids redirects frees s = .ok (redirects', frees') s' →
      Flushing g retired t base dirty rows s' redirects' frees'
        ∧ ∀ x, x ∈ redirects' ↔ x ∈ redirects ∨ x ∈ ids := by
  induction ids with
  | nil =>
    intro s s' redirects redirects' frees frees' hf _ _ _ hrun
    obtain ⟨heq, rfl⟩ := pure_eq_ok.mp hrun
    obtain ⟨rfl, rfl⟩ := Prod.mk.inj heq
    exact ⟨hf, fun x => ⟨Or.inl, fun h => h.elim (fun h => h) nofun⟩⟩
  | cons old ids ih =>
    intro s s' redirects redirects' frees frees' hf hdeep hnodup hids hrun
    obtain ⟨hold, l, hl, hx⟩ := hids old mem_cons_self
    obtain ⟨hnotin, hnodup⟩ := nodup_cons.mp hnodup
    obtain ⟨node, hpage, ⟨y, hy, hyPath⟩, hdepth⟩ := hd.branch hl hx
    have hfull := fullPath_getElem? hx
    have hclosed : ∀ c ∈ node.children, (∃ j, OnPath rows j c) → c ∈ redirects := by
      rintro c hc ⟨j, hj⟩
      exact hdeep j (by rw [hdepth c hc j hj]; exact Nat.lt_succ_self d) c hj
    have hcur : s.pager.page old = some (.internal node) := by
      rw [hf.touches.page fun hmem => ?_]
      · exact hpage
      · refine disjoint_of_nodup_append hf.ledger.nodup hmem (mem_append_left _ ?_)
        exact Node.fullPath_subset (hd.rows_mem l hl) (mem_of_getElem? hfull)
    obtain ⟨n, q, hread, hrun⟩ := bind_eq_ok.mp hrun
    obtain ⟨rfl, hq⟩ := (readInternal_returns hcur).sound _ _ hread
    have hany : (n.children.any fun c => (redirects.lookup c).isSome) = true :=
      any_eq_true.mpr ⟨y, hy, AList.lookup_isSome.mpr (hdeep (d + 1) (Nat.lt_succ_self d) y hyPath)⟩
    rw [if_pos hany] at hrun
    obtain ⟨new, v, halloc, hrun⟩ := bind_eq_ok.mp hrun
    obtain ⟨_, w, hwrite, hrun⟩ := bind_eq_ok.mp hrun
    have hstep := hf.move hold hpage hq ⟨d, l, hl, hfull⟩ hclosed halloc
      (writeInternal_eq_ok hwrite)
    have hrest : ∀ x ∈ ids, x ∉ redirects.insert old new ∧ ∃ l ∈ rows, l.2[d]? = some x := by
      intro x hxids
      obtain ⟨hout, hpath⟩ := hids x (mem_cons_of_mem _ hxids)
      refine ⟨fun hin => ?_, hpath⟩
      rcases (AList.mem_insert _).mp hin with heq | hin
      · exact hnotin (heq ▸ hxids)
      · exact hout hin
    have hdeep' : ∀ j, d < j → ∀ x, OnPath rows j x → x ∈ redirects.insert old new :=
      fun j hj x hx => (AList.mem_insert _).mpr (Or.inr (hdeep j hj x hx))
    obtain ⟨hf', hmem⟩ := ih hstep hdeep' hnodup hrest hrun
    refine ⟨hf', fun x => ?_⟩
    rw [hmem x, AList.mem_insert, mem_cons]
    tauto

/-- **Every branch above a dirty leaf moves**, deepest first. -/
theorem rewriteSpine_spec (hd : Drained t base rows) (depth : Nat) :
    ∀ {s s' : Session} {redirects redirects' : Table PageId PageId} {frees frees' : List PageId},
      Flushing g retired t base dirty rows s redirects frees →
      (∀ j, depth ≤ j → ∀ x, OnPath rows j x → x ∈ redirects) →
      (∀ l ∈ rows, l.1 ∈ redirects) →
      (∀ x ∈ redirects, ∃ j, depth ≤ j ∧ OnPath rows j x) →
      rewriteSpine (rows.map Prod.snd) depth redirects frees s = .ok (redirects', frees') s' →
      Flushing g retired t base dirty rows s' redirects' frees'
        ∧ ∀ x, x ∈ redirects' ↔ ∃ j, OnPath rows j x := by
  induction depth with
  | zero =>
    intro s s' redirects redirects' frees frees' hf hdeep _ honly hrun
    obtain ⟨heq, rfl⟩ := pure_eq_ok.mp hrun
    obtain ⟨rfl, rfl⟩ := Prod.mk.inj heq
    refine ⟨hf, fun x => ⟨fun hx => ?_, ?_⟩⟩
    · obtain ⟨j, -, hj⟩ := honly x hx
      exact ⟨j, hj⟩
    · rintro ⟨j, hj⟩
      exact hdeep j (Nat.zero_le j) x hj
  | succ d ih =>
    intro s s' redirects redirects' frees frees' hf hdeep hleaf honly hrun
    obtain ⟨⟨redirects₁, frees₁⟩, w, hlevel, hrun⟩ := bind_eq_ok.mp hrun
    -- the branches of this depth have not moved yet
    have hlevelIds : ∀ x ∈ internalsAtDepth (rows.map Prod.snd) d,
        x ∉ redirects ∧ ∃ l ∈ rows, l.2[d]? = some x := by
      intro x hx
      obtain ⟨l, hl, hlx⟩ := mem_internalsAtDepth.mp hx
      refine ⟨fun hin => ?_, l, hl, hlx⟩
      obtain ⟨j, hj, l', hl', hjx⟩ := honly x hin
      have := Node.depth_unique hd.nodup (hd.rows_mem l hl) (hd.rows_mem l' hl')
        (fullPath_getElem? hlx) hjx
      omega
    obtain ⟨hf₁, hmem⟩ := rewriteInternals_spec hd d _ hf hdeep (internalsAtDepth_nodup _ _)
      hlevelIds hlevel
    refine ih hf₁ (fun j hj x hx => ?_) (fun l hl => (hmem _).mpr (Or.inl (hleaf l hl)))
      (fun x hx => ?_) hrun
    · rcases Nat.eq_or_lt_of_le hj with rfl | hj
      · -- at this depth: a branch that just moved, or the leaf at the end
        obtain ⟨l, hl, hlx⟩ := hx
        rw [hmem]
        by_cases hlt : d < l.2.length
        · refine Or.inr (mem_internalsAtDepth.mpr ⟨l, hl, ?_⟩)
          unfold fullPath at hlx
          rwa [getElem?_append_left hlt] at hlx
        · refine Or.inl ?_
          unfold fullPath at hlx
          rw [getElem?_append_right (Nat.le_of_not_lt hlt)] at hlx
          rw [mem_singleton.mp (mem_of_getElem? hlx)]
          exact hleaf l hl
      · exact (hmem x).mpr (Or.inl (hdeep j hj x hx))
    · rcases (hmem x).mp hx with hx | hx
      · obtain ⟨j, hj, hjx⟩ := honly x hx
        exact ⟨j, Nat.le_of_succ_le hj, hjx⟩
      · obtain ⟨l, hl, hlx⟩ := mem_internalsAtDepth.mp hx
        exact ⟨d, Nat.le_refl d, l, hl, fullPath_getElem? hlx⟩

/-- The moved tree is shown where the table sends it. -/
theorem Flushing.rep {redirects : Table PageId PageId} {frees : List PageId}
    (hf : Flushing g retired t base dirty rows s redirects frees)
    (hd : Drained t base rows) (hpaths : ∀ x, x ∈ redirects ↔ ∃ j, OnPath rows j x)
    (hleaves : ∀ p records, (p, Cell.leaf records) ∈ t.cells →
      (∃ leaf, dirty.lookup p = some leaf ∧ leaf.records = leafRecords records)
      ∨ p ∉ dirty ∧ ∃ leaf, base.pager.page p = some (.leaf leaf)
        ∧ leaf.records = leafRecords records)
    (hpaged : ∀ p ∈ dirty, ∃ leaf, base.pager.page p = some (.leaf leaf))
    (hfresh : base.freshLeaves = ∅) (hdirty : base.dirtyLeaves = ∅) :
    Rep s.Shows (t.rename (redirected redirects)) := by
  -- with empty caches a lookup sees the pager
  have hlook : ∀ p, s.look p = (s.pager.page p).bind Page.node? := by
    intro p
    obtain ⟨n, f, r, c, d, pager, rfl, -⟩ := hf.touches
    refine Session.look_page ?_ ?_
    · show base.freshLeaves.lookup p = none
      rw [hfresh]; rfl
    · show base.dirtyLeaves.lookup p = none
      rw [hdirty]; rfl
  have hsame : ∀ p ∈ t.ids, s.pager.page p = base.pager.page p := fun p hp =>
    hf.touches.page fun hmem =>
      disjoint_of_nodup_append hf.ledger.nodup hmem (mem_append_left _ hp)
  have hkeys : ∀ x, x ∈ redirects ↔ x ∈ frees ∨ x ∈ dirty := by
    intro x
    rw [AList.mem_keys, hf.keys.mem_iff, mem_append, ← AList.mem_keys]
  refine Rep.rename _ ?_
  rintro ⟨p, c⟩ he
  have hp : p ∈ t.ids := by
    rw [← Node.cells_map_fst]
    exact mem_map_of_mem he
  cases c with
  | leaf records =>
    show s.look (redirected redirects p) = some (.inl (leafRecords records))
    rcases hleaves p records he with ⟨leaf, hleaf, hrecords⟩ | ⟨hclean, leaf, hpage, hrecords⟩
    · obtain ⟨new, hnew, hpage⟩ := hf.leaves p leaf hleaf
      rw [redirected_of_lookup hnew, hlook, hpage, ← hrecords]
      rfl
    · have hout : p ∉ redirects := by
        rw [hkeys]
        rintro (hin | hin)
        · obtain ⟨node, -, hnode, -⟩ := hf.nodes p hin
          rw [hpage] at hnode
          cases hnode
        · exact hclean hin
      rw [redirected_of_notMem hout, hlook, hsame p hp, hpage, ← hrecords]
      rfl
  | branch first rest =>
    have hpage := hd.branches p first rest he
    by_cases hin : p ∈ redirects
    · have hfree : p ∈ frees := by
        rcases (hkeys p).mp hin with hfree | hdirtyMem
        · exact hfree
        · obtain ⟨leaf, hleaf⟩ := hpaged p hdirtyMem
          rw [hpage] at hleaf
          cases hleaf
      obtain ⟨node, new, hnode, hnew, hwritten, -⟩ := hf.nodes p hfree
      rw [hpage] at hnode
      injection hnode with hnode
      injection hnode with hnode
      subst hnode
      show s.look (redirected redirects p) = _
      rw [redirected_of_lookup hnew, hlook, hwritten]
      rfl
    · -- a branch that did not move links to nothing that moved
      have hlinks : ∀ x ∈ (Cell.branch first rest : Cell PageId Bytes Stored).links,
          redirected redirects x = x := by
        intro x hx
        refine redirected_of_notMem fun hxin => ?_
        obtain ⟨j, l, hl, hj⟩ := (hpaths x).mp hxin
        obtain ⟨i, rfl, hi⟩ := Node.parent_on_path hd.nodup (hd.rows_mem l hl) he hx hj
        exact hin ((hpaths p).mpr ⟨i, l, hl, hi⟩)
      rw [Cell.rename_eq_self hlinks]
      show s.look (redirected redirects p) = _
      rw [redirected_of_notMem hin, hlook, hsame p hp, hpage]
      rfl

end Spine

/-! ## §5. The whole flush -/

theorem foldl_max_le {l : List Nat} : ∀ {a b : Nat},
    l.foldl max a ≤ b ↔ a ≤ b ∧ ∀ x ∈ l, x ≤ b := by
  induction l with
  | nil => intro a b; exact ⟨fun h => ⟨h, nofun⟩, fun h => h.1⟩
  | cons y l ih =>
    intro a b
    show l.foldl max (max a y) ≤ b ↔ _
    rw [ih, Nat.max_le, forall_mem_cons, and_assoc]

/-- The leaf at a cell: cached among the dirty leaves, or a page. -/
theorem Holds.leaf_cases (hs : Holds g s retired held t) (hfresh : s.freshLeaves = ∅)
    {records : List (Bytes × Stored)} (he : (p, Cell.leaf records) ∈ t.cells) :
    (∃ leaf, s.dirtyLeaves.lookup p = some leaf ∧ leaf.records = leafRecords records)
      ∨ p ∉ s.dirtyLeaves ∧ ∃ leaf, s.pager.page p = some (.leaf leaf)
        ∧ leaf.records = leafRecords records := by
  have hf : s.freshLeaves.lookup p = none := by rw [hfresh]; rfl
  obtain ⟨page, hpage, hrecords⟩ :=
    Session.page_of_look_leaf hs.live.caches.paged hf (hs.rep (p, .leaf records) he)
  cases hd : s.dirtyLeaves.lookup p with
  | some leaf =>
    rw [hd] at hrecords
    exact Or.inl ⟨leaf, rfl, hrecords⟩
  | none =>
    rw [hd] at hrecords
    exact Or.inr ⟨AList.lookup_eq_none.mp hd, page, hpage, hrecords⟩

/-- The dirty half of the flush. -/
theorem flushDirty_spec {dirties : List (PageId × Leaf)} {u : Unit} {base w x : Session}
    {redirects' : Table PageId PageId} {frees : List PageId} (hs : Holds g s retired [] t)
    (hfresh : s.freshLeaves = ∅)
    (hbase : base = { s with dirtyLeaves := ∅, dirtyParentPaths := ∅, drains := s.drains + 1 })
    (hperm : dirties.Perm s.dirtyLeaves.toList)
    (hleaves : writeDirtyLeaves dirties ∅ base = .ok redirects w)
    (hspine : rewriteSpine (s.dirtyParentPaths.toList.map Prod.snd)
      (((s.dirtyParentPaths.toList.map Prod.snd).map List.length).foldl max 0) redirects [] w
        = .ok (redirects', frees) x) (hfrees : freePages frees
      { x with rootPageId := redirected redirects' x.rootPageId } = .ok u s') :
    Holds g s' (retired ++ s.dirtyLeaves.keys) [] (t.rename (redirected redirects'))
      ∧ s'.freshLeaves = ∅ ∧ s'.dirtyLeaves = ∅ := by
  have hc := hs.live.caches
  have hnodup : (dirties.map Prod.fst).Nodup := by
    rw [(hperm.map _).nodup_iff, Table.toList_map_fst]
    exact s.dirtyLeaves.keys_nodup
  have hmem : ∀ e, e ∈ dirties ↔ s.dirtyLeaves.lookup e.1 = some e.2 := fun e => by
    rw [hperm.mem_iff, Table.mem_toList]
  have hledger : Ledger g.source base (newPages ∅
      ++ (t.ids ++ (valuePages t.items ++ (retired ++ g.others)))) := by
    subst hbase
    exact ⟨hs.live.ledger.four, hs.live.ledger.law, hs.live.ledger.drawn⟩
  obtain ⟨hlw, htw, hkeys, hrows, -⟩ := writeDirtyLeaves_spec dirties hledger hnodup
    (fun e _ => AList.notMem_empty _) hleaves
  rw [show AList.keys (∅ : Table PageId PageId) = [] from rfl, append_nil] at hkeys
  have hkeysMem : ∀ p, p ∈ redirects ↔ p ∈ s.dirtyLeaves := by
    intro p
    rw [AList.mem_keys, hkeys.mem_iff, (hperm.map _).mem_iff, Table.toList_map_fst,
      ← AList.mem_keys]
  -- the cached parent paths are paths of the tree, one per dirty leaf
  have hrowMem : ∀ l, l ∈ s.dirtyParentPaths.toList ↔ s.dirtyParentPaths.lookup l.1 = some l.2 :=
    fun l => Table.mem_toList
  have hd : Drained t base s.dirtyParentPaths.toList := by
    refine ⟨hs.live.ids_nodup, fun l hl => hc.path_mem l.1 l.2 ((hrowMem l).mp hl), ?_⟩
    intro p first rest he
    subst hbase
    exact (Session.page_of_look_internal (hs.rep (p, .branch first rest) he)).1
  have hf : Flushing g retired t base s.dirtyLeaves s.dirtyParentPaths.toList w redirects [] := by
    refine ⟨hlw, htw, ?_, fun p leaf hleaf => ?_, nofun⟩
    · rw [nil_append, ← Table.toList_map_fst s.dirtyLeaves]
      exact hkeys.trans (hperm.map _)
    · exact hrows (p, leaf) ((hmem (p, leaf)).mpr hleaf)
  have hrowDirty : ∀ l ∈ s.dirtyParentPaths.toList, l.1 ∈ redirects := by
    intro l hl
    rw [hkeysMem, ← hc.path_keys]
    exact AList.lookup_isSome.mp (by rw [(hrowMem l).mp hl]; rfl)
  have hlength : ∀ l ∈ s.dirtyParentPaths.toList, l.2.length = H := fun l hl =>
    Node.leafPaths_length (hd.rows_mem l hl)
  generalize hdepth : ((s.dirtyParentPaths.toList.map Prod.snd).map List.length).foldl max 0 = depth
    at hspine
  have hle : depth ≤ H := by
    rw [← hdepth, foldl_max_le]
    refine ⟨Nat.zero_le _, fun n hn => ?_⟩
    obtain ⟨path, hpath, rfl⟩ := mem_map.mp hn
    obtain ⟨l, hl, rfl⟩ := mem_map.mp hpath
    exact Nat.le_of_eq (hlength l hl)
  have hge : ∀ l ∈ s.dirtyParentPaths.toList, l.2.length ≤ depth := by
    intro l hl
    have := (foldl_max_le.mp (Nat.le_of_eq hdepth)).2
    exact this _ (mem_map_of_mem (mem_map_of_mem hl))
  obtain ⟨hfx, hpaths⟩ := rewriteSpine_spec hd depth hf (by
      rintro j hj y ⟨l, hl, hly⟩
      unfold fullPath at hly
      rw [getElem?_append_right (Nat.le_trans (hge l hl) hj)] at hly
      rw [mem_singleton.mp (mem_of_getElem? hly)]
      exact hrowDirty l hl)
    hrowDirty
    (by
      intro y hy
      have hy := (hc.path_keys y).mpr ((hkeysMem y).mp hy)
      obtain ⟨path, hpath⟩ := Option.isSome_iff_exists.mp (AList.lookup_isSome.mpr hy)
      have hl := (hrowMem (y, path)).mpr hpath
      refine ⟨H, hle, (y, path), hl, ?_⟩
      rw [← hlength _ hl]
      exact getElem?_concat_length)
    hspine
  have hbaseFresh : base.freshLeaves = ∅ := by subst hbase; exact hfresh
  have hbaseDirty : base.dirtyLeaves = ∅ := by subst hbase; rfl
  have hbasePager : base.pager = s.pager := by subst hbase; rfl
  have hrep := hfx.rep hd hpaths (fun p records he => hbasePager ▸ hs.leaf_cases hfresh he)
    (fun p hp => hbasePager ▸ hc.paged p hp) hbaseFresh hbaseDirty
  have hsub : ∀ p ∈ redirects', p ∈ t.ids := by
    intro p hp
    obtain ⟨j, l, hl, hj⟩ := (hpaths p).mp hp
    exact Node.fullPath_subset (hd.rows_mem l hl) (mem_of_getElem? hj)
  -- the moved branches are the only pages still held outside the new tree
  have hbooks : Holds g { x with rootPageId := redirected redirects' x.rootPageId }
      (retired ++ s.dirtyLeaves.keys) frees (t.rename (redirected redirects')) := by
    have hids := (rename_ids_perm hs.live.ids_nodup hsub).trans (hfx.keys.append_left _)
    have hlx := hfx.ledger
    have htx := hfx.touches
    refine ⟨⟨?_, ?_, ?_, ?_⟩, hrep, ?_⟩
    · obtain ⟨n, f, r, c, d, pager, rfl, -⟩ := htx
      subst hbase
      refine ⟨fun p hp => ?_, fun p hp => absurd hp (AList.notMem_empty _), fun p hp => ?_,
        fun p hp => absurd hp (AList.notMem_empty _), fun p => Iff.rfl, fun p path hp => ?_, ?_⟩
      · have hp : p ∈ s.freshLeaves := hp
        rw [hfresh] at hp
        exact absurd hp (AList.notMem_empty _)
      · exact AList.notMem_empty _
      · cases hp
      · exact hc.scheduled.trans perm_append_comm
    · rw [Node.rename_items]
      exact hs.live.ordered
    · rw [Node.rename_items]
      intro r hr
      refine htx.held (hbasePager ▸ hs.live.values r hr) fun p hp hmem => ?_
      refine disjoint_of_nodup_append hlx.nodup hmem (mem_append_right _ ?_)
      exact mem_append_left _ (mem_flatMap.mpr ⟨r, hr, hp⟩)
    · rw [Node.rename_items, Node.rename_ids]
      refine Ledger.perm ⟨hlx.four, hlx.law, hlx.drawn⟩ ?_
      rw [← append_assoc (newPages redirects')]
      refine List.Perm.trans ?_ (hids.symm.append_right _)
      clear * -
      grind
    · rw [Node.rename_id, hs.root]
      obtain ⟨n, f, r, c, d, pager, rfl, -⟩ := htx
      subst hbase
      rfl
  obtain ⟨hl', ht'⟩ := Ledger.freeAll frees hbooks.live.ledger hfrees
  refine ⟨hbooks.touch ht' hl' (nil_subset _), ?_⟩
  obtain ⟨n, f, r, c, d, pager, rfl, -⟩ := ht'
  obtain ⟨n, f, r, c, d, pager, rfl, -⟩ := hfx.touches
  exact ⟨hbaseFresh, hbaseDirty⟩

theorem Holds.drained (hs : Holds g s retired held t) (n : Nat) :
    Holds g { s with drains := n } retired held t :=
  ⟨hs.live.marked s.rootPageId s.appendLastKey s.appendCachedPath n, hs.rep, hs.root⟩

/-- **A flush moves the tree and keeps what it reads**, leaving no cached leaf. -/
theorem flushDirtyLeaves_spec {hash : HashOrder} {u : Unit} (hs : Holds g s retired [] t)
    (hrun : flushDirtyLeaves hash s = .ok u s') :
    ∃ (t' : PageTree H) (retired' : List PageId), Holds g s' retired' [] t' ∧ t'.items = t.items
      ∧ s'.freshLeaves = ∅ ∧ s'.dirtyLeaves = ∅ := by
  unfold flushDirtyLeaves drainFreshLeaves at hrun
  rw [bind_assoc, get_bind, bind_assoc, set_bind, pure_bind] at hrun
  obtain ⟨_, w, hwrite, hrun⟩ := bind_eq_ok.mp hrun
  have hperm := hash.perm s.drains s.freshLeaves.toList
  obtain ⟨hw, hfresh, -, -⟩ := writeFreshLeaves_spec (hash.order s.drains s.freshLeaves.toList)
    (s := { s with freshLeaves := ∅, drains := s.drains + 1 }) (hs.drained (s.drains + 1))
    (fun p leaf => by rw [hperm.mem_iff, Table.mem_toList])
    (by
      rw [(hperm.map _).nodup_iff, Table.toList_map_fst]
      exact s.freshLeaves.keys_nodup)
    rfl hwrite
  rw [get_bind] at hrun
  split_ifs at hrun with hempty
  · obtain ⟨-, rfl⟩ := pure_eq_ok.mp hrun
    exact ⟨t, retired, hw, rfl, hfresh, AList.ext (List.isEmpty_iff.mp hempty)⟩
  · unfold drainDirtyLeaves at hrun
    rw [bind_assoc, get_bind, bind_assoc, set_bind, pure_bind] at hrun
    obtain ⟨redirects, v, hleaves, hrun⟩ := bind_eq_ok.mp hrun
    obtain ⟨⟨redirects', frees⟩, x, hspine, hrun⟩ := bind_eq_ok.mp hrun
    have hfrees : freePages frees
        { x with rootPageId := redirected redirects' x.rootPageId } = .ok u s' := hrun
    obtain ⟨hholds, hf, hd⟩ := flushDirty_spec hw hfresh rfl (hash.perm _ _) hleaves hspine hfrees
    exact ⟨_, _, hholds, Node.rename_items _ _ _, hf, hd⟩

end Pagedb
