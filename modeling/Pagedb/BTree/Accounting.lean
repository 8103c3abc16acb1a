/-
  Pagedb.BTree.Accounting — where the pages of a session are
  (`btree/tree/core.rs`, `flush.rs`).

  A session has three lists of pages it gave up: `freed` for the commit,
  `freed_reusable` for itself, and `scheduled_frees` for the leaves it holds dirty.
  A dirty leaf stays at its old page until the flush, so its page is scheduled while
  the tree still leads to it.

  Main results:
    * `Carries.reached_iff` — what a session reaches are the pages of its image;
    * `session_pages_are_accounted` — over any run of calls no page is on the lists
      twice, what the tree reaches is on none of them but for the dirty leaves, and
      every page is somewhere.
-/
import Pagedb.BTree.Contracts
import Pagedb.BTree.Release

namespace Pagedb

open Lib List

/-! ## §1. What a session reaches -/

/-- What the session has under an id: a leaf of its caches, or the pager's page. -/
def Session.view (s : Session) : PageView := fun id =>
  match s.freshLeaves.lookup id with
  | some leaf => some (.leaf leaf)
  | none =>
    match s.dirtyLeaves.lookup id with
    | some leaf => some (.leaf leaf)
    | none => s.pager.page id

/-- The pages the session's tree leads to: nodes, cached or not, and chains. -/
def Session.reached (s : Session) : Set PageId := s.view.treePages s.rootPageId

section Reached

variable {s : Session} {i : Image} {id : PageId}

theorem Session.look_eq_view : s.look id = (s.view id).bind Page.node? := by
  unfold Session.look Session.view
  cases s.freshLeaves.lookup id with
  | some leaf => rfl
  | none =>
    cases s.dirtyLeaves.lookup id <;> rfl

theorem Session.view_of_uncached (h : ¬ (id ∈ s.freshLeaves ∨ id ∈ s.dirtyLeaves)) :
    s.view id = s.pager.page id := by
  unfold Session.view
  rw [AList.lookup_eq_none.mpr fun hf => h (Or.inl hf), AList.lookup_eq_none.mpr fun hd => h (Or.inr hd)]

/-- The links of a leaf are the roots of its chains. -/
theorem Session.links_leaf {records : List (Bytes × Stored)}
    (h : s.look id = some (.inl (leafRecords records))) :
    s.view.links id = records.filterMap fun r => r.2.pages.head? := by
  rw [Session.look_eq_view] at h
  obtain ⟨page, hpage, hnode⟩ := Option.bind_eq_some_iff.mp h
  rw [PageView.links_eq hpage]
  cases page with
  | leaf l =>
    have hrecords : l.records = leafRecords records := by
      injection hnode with hnode
      injection hnode
    show l.records.filterMap _ = _
    rw [hrecords]
    unfold leafRecords
    rw [filterMap_map]
    refine filterMap_congr fun r _ => ?_
    obtain ⟨key, bytes, pages⟩ := r
    cases pages <;> rfl
  | _ => cases hnode

theorem Session.links_branch {node : Internal} (h : s.look id = some (.inr node)) :
    s.view.links id = node.children.filter (· ≠ 0) := by
  rw [Session.look_eq_view] at h
  obtain ⟨page, hpage, hnode⟩ := Option.bind_eq_some_iff.mp h
  rw [PageView.links_eq hpage]
  cases page with
  | internal n =>
    cases hnode
    rfl
  | _ => cases hnode

/-- The branches lead to every node below them. -/
theorem reach_ids {h : Nat} (n : PageTree h) (hrep : Rep s.Shows n) (hzero : 0 ∉ n.ids) :
    ∀ p ∈ n.ids, Reach s.view.links n.id p := by
  induction h with
  | zero =>
    intro p hp
    obtain ⟨id, records, rfl⟩ := n.exists_leaf
    rw [mem_singleton.mp hp]
    exact Reach.refl _
  | succ h ih =>
    intro p hp
    have hown := hrep _ n.own_cell_mem
    rw [Node.ids_eq_kids] at hp hzero
    rcases mem_cons.mp hp with rfl | hp
    · exact Reach.refl _
    · obtain ⟨kid, hkid, hp⟩ := mem_flatMap.mp hp
      have hzero' : 0 ∉ kid.ids := fun h0 =>
        hzero (mem_cons_of_mem _ (mem_flatMap.mpr ⟨kid, hkid, h0⟩))
      refine Reach.head ?_ (ih kid (hrep.kid hkid) hzero' p hp)
      rw [Session.links_branch ((shows_nodeOf n).mp hown), mem_filter]
      refine ⟨?_, decide_eq_true fun h0 => hzero' (h0 ▸ kid.id_mem_ids)⟩
      rw [children_nodeOf]
      exact mem_map_of_mem hkid

theorem Page.links_of_chainNext {page : Page} {next : PageId} (h : page.chainNext = some next) :
    page.links = [next].filter (· ≠ 0) := by
  cases page with
  | leaf l => cases h
  | internal n => cases h
  | free n => cases h
  | _ =>
    cases h
    rfl

theorem ChainFrom.chained {pager : Pager} {p : PageId} (pages : List PageId) :
    ∀ {link : PageId} {data : Bytes}, ChainFrom pager pages link data → p ∈ pages →
      ∃ page next, pager.page p = some page ∧ page.chainNext = some next := by
  induction pages with
  | nil =>
    intro link data _ hp
    cases hp
  | cons q pages ih =>
    intro link data h hp
    obtain ⟨-, next, chunk, rest, hpage, -, hrest⟩ := h
    rcases mem_cons.mp hp with rfl | hp
    · exact ⟨_, next, hpage, rfl⟩
    · exact ih hrest hp

theorem Stored.Held.chained {pager : Pager} {v : Stored} (h : v.Held pager) {p : PageId}
    (hp : p ∈ v.pages) : ∃ page next, pager.page p = some page ∧ page.chainNext = some next := by
  obtain ⟨bytes, pages⟩ := v
  cases pages with
  | nil => cases hp
  | cons root pages =>
    obtain ⟨next, chunk, rest, hpage, -, hrest⟩ := h
    rcases mem_cons.mp hp with rfl | hp
    · exact ⟨_, next, hpage, rfl⟩
    · exact ChainFrom.chained pages hrest hp

/-- A chain leads from each page to the next. -/
theorem reach_chain {pages : List PageId} :
    ∀ {from_ link : PageId} {data : Bytes}, ChainFrom s.pager pages link data → 0 ∉ pages →
      (∀ p ∈ pages, s.view p = s.pager.page p) → (link ≠ 0 → link ∈ s.view.links from_) →
      ∀ p ∈ pages, Reach s.view.links from_ p := by
  induction pages with
  | nil =>
    intro from_ link data _ _ _ _ p hp
    cases hp
  | cons q pages ih =>
    intro from_ link data hchain hzero hview hlink p hp
    obtain ⟨rfl, next, chunk, rest, hpage, -, hrest⟩ := hchain
    have hstep : link ∈ s.view.links from_ := hlink fun h0 => hzero (h0 ▸ mem_cons_self)
    rcases mem_cons.mp hp with rfl | hp
    · exact Reach.head hstep (Reach.refl _)
    · refine Reach.head hstep (ih hrest (fun h0 => hzero (mem_cons_of_mem _ h0))
        (fun p hp => hview p (mem_cons_of_mem _ hp)) (fun hne => ?_) p hp)
      rw [PageView.links_eq ((hview link mem_cons_self).trans hpage)]
      exact mem_filter.mpr ⟨mem_singleton_self next, decide_eq_true hne⟩

end Reached

section Carried

variable {g : Surroundings} {s : Session} {retired : List PageId} {i : Image}

variable (hs : Carries g s retired i)

include hs

theorem Carries.pages_nodup :
    (i.pages ++ (retired ++ g.others)).Nodup := by
  have hnodup := hs.live.ledger.nodup
  rw [nil_append, ← append_assoc] at hnodup
  exact hnodup

theorem Carries.view_value {p : PageId}
    (hp : p ∈ valuePages i.items) : s.view p = s.pager.page p := by
  refine Session.view_of_uncached fun hcached => ?_
  have hid : p ∈ i.ids := hcached.elim (hs.live.caches.fresh_mem p) (hs.live.caches.dirty_mem p)
  exact disjoint_of_nodup_append hs.pages_nodup.of_append_left hid hp

theorem Carries.zero_notMem : 0 ∉ i.pages := by
  intro h0
  refine hs.live.ledger.zero_notMem ?_
  rw [nil_append, ← append_assoc]
  exact mem_append_left _ h0

/-- A sound tree is among those whose chains may be broken. -/
theorem Carries.fragile : Fragile g.source (retired ++ g.others) [] s i where
  outline := hs.readable.outline
  dirty := hs.live.caches.dirty_mem
  closed := by
    refine ⟨valuePages i.items, subset_append_right _ _, List.Subset.refl _,
      fun p hp page next hpage hlink => ?_⟩
    obtain ⟨r, hr, hp⟩ := mem_flatMap.mp hp
    refine ((hs.live.values r hr).closed p hp page next hpage hlink).imp_right fun hnext => ?_
    exact mem_flatMap.mpr ⟨r, hr, hnext⟩
  ledger := hs.live.ledger.perm (List.Perm.of_eq (congrArg _ (append_assoc _ _ _)))

/-- The pages of an image lead to each other only. -/
theorem Carries.closed :
    ∀ x ∈ i.pages, ∀ y ∈ s.view.links x, y ∈ i.pages := by
  intro x hx y hy
  rcases mem_append.mp hx with hx | hx
  · cases i with
    | empty => cases hx
    | tree t =>
      have hx : x ∈ t.ids := hx
      rw [← Node.cells_map_fst] at hx
      obtain ⟨⟨q, cell⟩, hcell, rfl⟩ := mem_map.mp hx
      have hshows := hs.rep _ hcell
      cases cell with
      | leaf records =>
        rw [Session.links_leaf hshows] at hy
        obtain ⟨r, hr, hhead⟩ := mem_filterMap.mp hy
        exact mem_valuePages (Node.mem_recordsOf_of_cell hcell hr) (mem_of_head? hhead)
      | branch first rest =>
        rw [Session.links_branch hshows] at hy
        have hlink : y ∈ (Cell.branch first rest : Cell PageId Bytes Stored).links :=
          (mem_filter.mp hy).1
        exact mem_append_left _ (Node.links_subset _ t _ hcell hlink)
  · -- a chain page leads to the next page of its chain
    obtain ⟨r, hr, hp⟩ := mem_flatMap.mp hx
    have hheld := hs.live.values r hr
    obtain ⟨page, next, hpage, hnext⟩ := hheld.chained hp
    rw [PageView.links_eq ((hs.view_value hx).trans hpage), Page.links_of_chainNext hnext] at hy
    obtain ⟨hy, hne⟩ := mem_filter.mp hy
    obtain rfl := mem_singleton.mp hy
    exact mem_valuePages hr ((hheld.closed x hp page y hpage hnext).resolve_left (of_decide_eq_true hne))

/-- **What a session reaches are the pages of its image.** -/
theorem Carries.reached_iff (p : PageId) :
    p ∈ s.reached ↔ p ∈ i.pages := by
  constructor
  · rintro ⟨hroot, hreach⟩
    refine hreach.mem_of_closed (S := fun x => x ∈ i.pages) ?_ hs.closed
    cases i with
    | empty => exact absurd hs.root.symm hroot
    | tree t =>
      have hid : t.id = s.rootPageId := hs.root
      rw [← hid]
      exact mem_append_left _ t.id_mem_ids
  · intro hp
    cases i with
    | empty => cases hp
    | tree t =>
      have hid : t.id = s.rootPageId := hs.root
      refine ⟨hs.readable.root_ne_zero, ?_⟩
      rw [← hid]
      have hids := reach_ids t hs.rep hs.live.ids_zero
      rcases mem_append.mp hp with hp | hp
      · exact hids p hp
      · -- from the leaf of the record along its chain
        obtain ⟨r, hr, hpr⟩ := mem_flatMap.mp hp
        have hheld := hs.live.values r hr
        have hview : ∀ q ∈ r.2.pages, s.view q = s.pager.page q := fun q hq =>
          hs.view_value (mem_flatMap.mpr ⟨r, hr, hq⟩)
        have hzero : ∀ q ∈ r.2.pages, q ≠ 0 := fun q hq h0 =>
          hs.zero_notMem (h0 ▸ mem_valuePages hr hq)
        have hr : r ∈ recordsOf t.items := hr
        rw [Node.recordsOf_items] at hr
        obtain ⟨l, hl, hr⟩ := mem_flatMap.mp hr
        have hcell := Node.leaf_cell_mem hl
        have hlinks := Session.links_leaf (hs.rep _ hcell)
        have hleaf : l.id ∈ t.ids := by
          rw [← Node.cells_map_fst]
          exact mem_map_of_mem hcell
        refine (hids l.id hleaf).trans ?_
        obtain ⟨key, bytes, pages⟩ := r
        cases pages with
        | nil => cases hpr
        | cons root pages =>
          obtain ⟨next, chunk, rest, hpage, -, hrest⟩ := hheld
          have hroot : root ∈ s.view.links l.id := by
            rw [hlinks]
            exact mem_filterMap.mpr ⟨_, hr, rfl⟩
          rcases mem_cons.mp hpr with rfl | hpr
          · exact Reach.head hroot (Reach.refl _)
          · refine Reach.head hroot (reach_chain hrest (fun h0 => ?_)
              (fun q hq => hview q (mem_cons_of_mem _ hq)) (fun hne => ?_) p hpr)
            · exact hzero 0 (mem_cons_of_mem _ h0) rfl
            · rw [PageView.links_eq ((hview root mem_cons_self).trans hpage)]
              exact mem_filter.mpr ⟨mem_singleton_self next, decide_eq_true hne⟩

end Carried

/-! ## §2. The books over a run -/

/-- The calls that change single records, and the flush. -/
def TreeCall.keepsBooks : TreeCall → Bool
  | put _ _ | putBatch _ | delete _ | deleteBatch _ | flush => true
  | putAppend _ _ | deleteRange _ _ | bulkLoad _ => false

/-- The pages the session gave up. -/
def Session.given (s : Session) : List PageId := s.freed ++ (s.freedReusable ++ s.scheduledFrees)

/-- The page was handed out since `s₀`, from the end of the file or by the source. -/
def Session.HandedOut (s₀ s : Session) (p : PageId) : Prop :=
  (s₀.nextPageId ≤ p ∧ p < s.nextPageId) ∨ (p ∈ s₀.cache ∧ p ∉ s.cache)

section Books

variable {g : Surroundings} {s s' s₀ : Session} {retired : List PageId} {i i₀ : Image}
  {hash : HashOrder}

/-- One call keeps the books, with the same surroundings; behind a flush nothing is cached. -/
theorem TreeCall.carries {c : TreeCall} {u : Unit} (hc : c.keepsBooks = true)
    (hs : Carries g s retired i) (hrun : c.run hash s = .ok u s') :
    ∃ retired' i', Carries g s' retired' i' ∧ (c = .flush → s'.dirtyLeaves = ∅) := by
  cases c with
  | put key value =>
    obtain ⟨i', hs', -⟩ := treePut_spec hs hrun
    exact ⟨retired, i', hs', nofun⟩
  | putBatch pairs =>
    obtain ⟨i', hs', -⟩ := treePutBatch_spec hs hrun
    exact ⟨retired, i', hs', nofun⟩
  | delete key =>
    obtain ⟨found, w, hdelete, hend⟩ := bind_eq_ok.mp hrun
    obtain ⟨-, rfl⟩ := pure_eq_ok.mp hend
    obtain ⟨i', hs', -⟩ := treeDelete_spec hs hdelete
    exact ⟨retired, i', hs', nofun⟩
  | deleteBatch keys =>
    obtain ⟨i', hs', -⟩ := (treeDeleteBatch_returns hs).sound _ _ hrun
    exact ⟨retired, i', hs', nofun⟩
  | flush =>
    obtain ⟨i', retired', hs', -, -, hdirty⟩ := materializeDirty_spec hs hrun
    exact ⟨retired', i', hs', fun _ => hdirty⟩
  | _ => cases hc

/-- So does a run of them. -/
theorem runCalls_carries (calls : List TreeCall) (hcalls : ∀ c ∈ calls, c.keepsBooks = true) :
    ∀ {s : Session} {retired : List PageId} {i : Image} {u : Unit}, Carries g s retired i →
      runCalls hash calls s = .ok u s' →
      ∃ retired' i', Carries g s' retired' i' ∧ (calls.getLast? = some .flush → s'.dirtyLeaves = ∅) := by
  induction calls with
  | nil =>
    intro s retired i u hs hrun
    obtain ⟨-, rfl⟩ := pure_eq_ok.mp hrun
    exact ⟨retired, i, hs, nofun⟩
  | cons c calls ih =>
    intro s retired i u hs hrun
    obtain ⟨_, w, hcall, hrest⟩ := bind_eq_ok.mp hrun
    obtain ⟨retired₁, i₁, hw, hflushed⟩ := TreeCall.carries (hcalls c mem_cons_self) hs hcall
    obtain ⟨retired', i', hs', hlast⟩ :=
      ih (fun c hc => hcalls c (mem_cons_of_mem _ hc)) hw hrest
    refine ⟨retired', i', hs', fun hflush => ?_⟩
    cases calls with
    | nil =>
      obtain ⟨-, rfl⟩ := pure_eq_ok.mp hrest
      exact hflushed (Option.some.inj hflush)
    | cons c' calls => exact hlast hflush

variable (hs : Carries g s retired i)

include hs

theorem Carries.given_perm :
    s.given.Perm (s.dirtyLeaves.keys ++ (retired ++ (s.freed ++ s.freedReusable))) := by
  unfold Session.given
  rw [← append_assoc]
  refine (List.Perm.append_left _ hs.live.caches.scheduled).trans ?_
  rw [← append_assoc (s.dirtyLeaves.keys)]
  exact perm_append_comm

theorem Carries.law :
    (i.pages ++ (retired ++ (s.freed ++ s.freedReusable)) ++ (g.others ++ s.cache)).Perm
      (List.range' 4 (s.nextPageId - 4)) := by
  refine List.Perm.trans ?_ hs.live.ledger.law
  rw [nil_append]
  show List.Perm _ ((i.ids ++ (valuePages i.items ++ (retired ++ g.others)))
    ++ (s.freed ++ (s.freedReusable ++ s.cache)))
  rw [← append_assoc i.ids, show i.ids ++ valuePages i.items = i.pages from rfl]
  rw [perm_iff_count]
  intro p
  simp only [count_append]
  omega

theorem Carries.nodup_law :
    (i.pages ++ (retired ++ (s.freed ++ s.freedReusable)) ++ (g.others ++ s.cache)).Nodup :=
  hs.law.nodup_iff.mpr nodup_range'

theorem Carries.given_nodup : s.given.Nodup := by
  rw [hs.given_perm.nodup_iff]
  have hlaw := hs.nodup_law.of_append_left
  refine nodup_append.mpr ⟨s.dirtyLeaves.nodupKeys, hlaw.of_append_right, ?_⟩
  intro p hp q hq heq
  have hid : p ∈ i.pages := mem_append_left _ (hs.live.caches.dirty_mem p hp)
  exact disjoint_of_nodup_append hlaw hid (heq ▸ hq)

theorem Carries.given_reached {p : PageId} (hp : p ∈ s.given) :
    p ∈ s.reached ↔ p ∈ s.dirtyLeaves := by
  rw [hs.reached_iff]
  constructor
  · intro hmem
    rcases mem_append.mp (hs.given_perm.mem_iff.mp hp) with hdirty | hgone
    · exact hdirty
    · exact absurd hgone (disjoint_of_nodup_append hs.nodup_law.of_append_left hmem)
  · intro hdirty
    exact mem_append_left _ (hs.live.caches.dirty_mem p hdirty)

/-- The pages that are neither of someone else nor in the source are in the tree or given up. -/
theorem Carries.accounted {p : PageId} (h4 : 4 ≤ p)
    (hlt : p < s.nextPageId) (hothers : p ∉ g.others) (hcache : p ∉ s.cache) :
    p ∈ s.reached ∨ p ∈ s.given := by
  have hrange : p ∈ List.range' 4 (s.nextPageId - 4) := by
    rw [mem_range'_1]
    unfold PageId at *
    omega
  rcases mem_append.mp (hs.law.mem_iff.mpr hrange) with hp | hp
  · rcases mem_append.mp hp with hp | hp
    · exact Or.inl ((hs.reached_iff p).mpr hp)
    · exact Or.inr (hs.given_perm.mem_iff.mpr (mem_append_right _ hp))
  · rcases mem_append.mp hp with hp | hp
    · exact absurd hp hothers
    · exact absurd hp hcache

omit hs

/-- The end of the file has not come down since `s₀`, and the source was only drawn from. -/
def Session.Grown (s₀ s : Session) : Prop := s₀.nextPageId ≤ s.nextPageId ∧ s.cache ⊆ s₀.cache

theorem Session.grown_forgetful (s₀ : Session) : Forgetful (Session.Grown s₀) where
  quiet := by
    rintro s _ h ⟨faults, rfl⟩
    exact h
  fields := fun h _ _ _ _ hnext hcache => ⟨h.1.trans hnext, List.Subset.trans hcache h.2⟩
  write := fun _ _ h _ => h
  path := fun h => h
  reset := Keeps.modify fun _ h => h

theorem runCalls_grown (calls : List TreeCall) (hcalls : ∀ c ∈ calls, c.keepsBooks = true) :
    Keeps (Session.Grown s₀) (runCalls hash calls) := by
  induction calls with
  | nil => exact Keeps.pure _
  | cons c calls ih =>
    have hplain : c.appended = none := by
      have hc := hcalls c mem_cons_self
      cases c with
      | putAppend key value => cases hc
      | _ => rfl
    exact (TreeCall.keeps (Session.grown_forgetful s₀) hash c hplain).bind fun _ =>
      ih fun c hc => hcalls c (mem_cons_of_mem _ hc)

/-- A page of the tree, or one handed out since, is no page of someone else. -/
theorem Carries.own (h₀ : Carries g s₀ [] i₀) {p : PageId}
    (hp : s₀.HandedOut s p ∨ p ∈ s₀.reached) : p ∉ g.others := by
  intro hother
  have hlaw := h₀.nodup_law
  rcases hp with (⟨hbumped, -⟩ | ⟨hdrawn, -⟩) | hreached
  · have hlt : p < s₀.nextPageId := by
      refine (h₀.live.ledger.bounds ?_).2
      simp [hother]
    exact absurd hlt (Nat.not_lt.mpr hbumped)
  · exact disjoint_of_nodup_append hlaw.of_append_right hother hdrawn
  · exact disjoint_of_nodup_append hlaw
      (mem_append_left _ ((h₀.reached_iff p).mp hreached)) (mem_append_left _ hother)

/-- Such a page is below the end of the file and no longer in the source. -/
theorem Carries.own_bounds (h₀ : Carries g s₀ [] i₀) (hs : s₀.Grown s) {p : PageId}
    (hp : s₀.HandedOut s p ∨ p ∈ s₀.reached) :
    4 ≤ p ∧ p < s.nextPageId ∧ p ∉ s.cache := by
  have hlaw := h₀.nodup_law
  have hrange : ∀ q, q ∈ i₀.pages ∨ q ∈ s₀.cache → 4 ≤ q ∧ q < s₀.nextPageId := by
    intro q hq
    have hmem : q ∈ List.range' 4 (s₀.nextPageId - 4) := by
      rw [← h₀.law.mem_iff]
      rcases hq with hq | hq
      · exact mem_append_left _ (mem_append_left _ hq)
      · exact mem_append_right _ (mem_append_right _ hq)
    rw [mem_range'_1] at hmem
    have hfour := h₀.live.ledger.four
    unfold PageId at *
    omega
  rcases hp with (⟨hbumped, hlt⟩ | ⟨hdrawn, hgone⟩) | hreached
  · refine ⟨h₀.live.ledger.four.trans hbumped, hlt, fun hcache => ?_⟩
    exact absurd (hrange p (Or.inr (hs.2 hcache))).2 (Nat.not_lt.mpr hbumped)
  · obtain ⟨h4, hlt⟩ := hrange p (Or.inr hdrawn)
    exact ⟨h4, hlt.trans_le hs.1, hgone⟩
  · have hmem := (h₀.reached_iff p).mp hreached
    obtain ⟨h4, hlt⟩ := hrange p (Or.inl hmem)
    refine ⟨h4, hlt.trans_le hs.1, fun hcache => ?_⟩
    exact disjoint_of_nodup_append hlaw (mem_append_left _ hmem) (mem_append_right _ (hs.2 hcache))

/-- **The books of a session are right.**  In a session opened on a readable tree of
    distinct pages with a source of other pages, over any calls that return: the lists
    of pages given up name no page twice; the tree reaches none of them but the dirty
    leaves, and after a flush none at all; and every page handed out, like every page
    of the tree the session was opened on, is reached or on one of the lists. -/
theorem session_pages_are_accounted {base : Session} {root next : PageId}
    {threshold : Option PageId} {cache consumed : List PageId} {calls : List TreeCall} {u : Unit}
    (h₀ : s₀ = base.reopen root next threshold cache consumed) (hread : Readable s₀ i₀)
    (hpages : i₀.pages.Nodup) (hfour : ∀ p ∈ i₀.pages, 4 ≤ p)
    (hapart : ∀ p ∈ i₀.pages, p < next ∧ p ∉ cache) (hsource : SourceOk (max next 4) cache)
    (hcalls : ∀ c ∈ calls, c.keepsBooks = true) (hrun : runCalls hash calls s₀ = .ok u s) :
    s.given.Nodup ∧ (∀ p ∈ s.given, p ∈ s.reached ↔ p ∈ s.dirtyLeaves)
      ∧ (∀ p ∈ s.dirtyLeaves, p ∈ s.scheduledFrees)
      ∧ (calls.getLast? = some .flush → ∀ p ∈ s.given, p ∉ s.reached)
      ∧ ∀ p, s₀.HandedOut s p ∨ p ∈ s₀.reached → p ∈ s.reached ∨ p ∈ s.given := by
  subst h₀
  obtain ⟨g, hstart⟩ := hread.opened hpages hfour hapart hsource
  obtain ⟨retired, i, hs, hflush⟩ := runCalls_carries calls hcalls hstart hrun
  have hgrown : Session.Grown _ s :=
    (runCalls_grown calls hcalls).of_ok ⟨Nat.le_refl _, List.Subset.refl _⟩ hrun
  refine ⟨hs.given_nodup, fun p hp => hs.given_reached hp, fun p hp => ?_, fun hlast p hp => ?_,
    fun p hp => ?_⟩
  · exact hs.live.caches.scheduled.mem_iff.mpr (mem_append_left _ hp)
  · rw [hs.given_reached hp, hflush hlast]
    exact AList.notMem_empty p
  · obtain ⟨h4, hlt, hcache⟩ := hstart.own_bounds hgrown hp
    exact hs.accounted h4 hlt (hstart.own hp) hcache

end Books

/-- An empty tree: a leaf is written, flushed and changed again. -/
theorem session_pages_are_accounted_two_puts :
    ∃ s, runCalls HashOrder.stable [.put [1] [2], .flush, .put [3] [4], .flush] Session.blank
        = .ok () s
      ∧ (∀ p ∈ s.given, p ∉ s.reached)
      ∧ ∀ p, Session.blank.HandedOut s p → p ∈ s.reached ∨ p ∈ s.given := by
  refine exists_ok_imp (P := fun _ => True) (by decide +kernel) fun s hrun _ => ?_
  have hsource : SourceOk (max 4 4) [] := ⟨nodup_nil,
    nofun, nofun⟩
  have hopened : Session.blank = Session.blank.reopen 0 4 none [] [] := rfl
  obtain ⟨g, hblank⟩ : ∃ g, Carries g (Session.blank.reopen 0 4 none [] []) [] .empty :=
    carries_empty hsource
  have hread : Readable Session.blank .empty := hblank.readable
  have h := session_pages_are_accounted hopened hread nodup_nil (nofun) (nofun) hsource
    (by decide) hrun
  exact ⟨h.2.2.2.1 rfl, fun p hp => h.2.2.2.2 p (Or.inl hp)⟩

/-- **A dirty leaf is scheduled while the tree reaches it.** -/
theorem dirty_leaf_is_scheduled_and_reached :
    ∃ s, runCalls HashOrder.stable [.put [1] [2], .flush, .put [3] [4]] Session.blank = .ok () s
      ∧ ∃ p ∈ s.scheduledFrees, p ∈ s.reached := by
  refine exists_ok_imp (P := fun s => s.rootPageId ∈ s.scheduledFrees ∧ s.rootPageId ≠ 0)
    (by decide +kernel) fun s _ ⟨hmem, hne⟩ => ?_
  exact ⟨s.rootPageId, hmem, hne, Reach.refl _⟩

end Pagedb
