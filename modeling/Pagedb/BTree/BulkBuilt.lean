/-
  Pagedb.BTree.BulkBuilt — a bulk load builds the tree it was given.

  Main results:
    * `finishFrom_returns` — the levels close into one root;
    * `bulkLoad_returns`   — every accepted ascending input is loaded, into a session
      that carries the tree;
    * `bulk_load_builds_input` — the tree's records, pages, separators and links, and
      what a rejected batch leaves;
    * `bulk_leaf_size_exact` — the projected size of the open leaf is the encoder's.
-/
import Pagedb.BTree.BulkRecords

namespace Pagedb

open Lib List

/-! ## §1. Finishing -/

section Finish

variable {source : List PageId} {pageSize : Nat} {h : Nat}

/-- A level that saw one child holds the whole tree. -/
theorem Stacked.sole {T : Tower PageId Bytes Stored h} {as : List LevelAccum}
    (hs : Stacked pageSize T as) (hone : seen as = 1) :
    ∃ k n a, T = .level [(k, n)] .top ∧ as = [a] ∧ a.soleChild = some n.id := by
  cases T with
  | top =>
    rw [show as = [] from hs] at hone
    cases hone
  | level kids up =>
    obtain ⟨a, rest, rfl, hfills, hseen, hup⟩ := hs
    have htotal : a.total = 1 := hone
    obtain ⟨⟨k, n⟩, others, rfl⟩ := exists_cons_of_ne_nil hfills.some_kid
    rw [htotal, length_cons] at hseen
    have hothers : others = [] := length_eq_zero_iff.mp (by omega)
    subst hothers
    cases up with
    | top =>
      have hrest : rest = [] := hup
      subst hrest
      refine ⟨k, n, a, rfl, rfl, ?_⟩
      unfold LevelAccum.soleChild
      rw [if_pos htotal, hfills.children]
      rfl
    | level kids' up' =>
      -- a level above would have seen a child too
      obtain ⟨b, rest', rfl, hfills', hseen', -⟩ := hup
      have hpos : 0 < kids'.length := length_pos_iff.mpr hfills'.some_kid
      have hb : seen (b :: rest') = b.total := rfl
      omega

theorem Stacked.eq_top {T : Tower PageId Bytes Stored h} {as : List LevelAccum}
    (hs : Stacked pageSize T as) (hnone : seen as = 0) : T = .top := by
  cases T with
  | top => rfl
  | level kids up =>
    obtain ⟨a, rest, rfl, hfills, hseen, -⟩ := hs
    have hpos : 0 < kids.length := length_pos_iff.mpr hfills.some_kid
    have htotal : a.total = 0 := hnone
    omega

/-- What `finish` leaves: the read-out of the tower under one root. -/
structure Rooted (source owned : List PageId) (st st' : Loading) (T : Tower PageId Bytes Stored h)
    {H : Nat} (k : Bytes) (n : PageTree H) : Prop where
  items : Item.sep k :: n.items = T.items
  leaves : n.leafIds = T.leafIds
  printed : ∀ e ∈ n.cells, st'.tree.Printed e.1 e.2
  ledger : Ledger source st'.tree (n.ids ++ owned)
  kept : ∃ ws s, st.tree.Touches ws s ∧ (∀ p ∈ T.leafIds ++ owned, p ∉ ws)
    ∧ st'.tree = { s with rootPageId := n.id }

/-- The one child of a tower is its root. -/
theorem setRoot_returns {st : Loading} {k : Bytes} {n : PageTree h} {owned : List PageId}
    (hprinted : ∀ e ∈ (Tower.level [(k, n)] .top).cells, st.tree.Printed e.1 e.2)
    (hl : Ledger source st.tree ((Tower.level [(k, n)] .top).ids ++ owned)) :
    Returns Loading.Clear (stepTree (setRoot n.id)) st fun _ st' =>
      Rooted source owned st st' (.level [(k, n)] .top) k n := by
  have hset : Returns Session.Clear (setRoot n.id) st.tree fun _ s' =>
      s' = { st.tree with rootPageId := n.id } := Returns.modify (fun hclear => hclear) rfl
  refine (stepTree_returns hset).weaken ?_
  rintro _ st' ⟨-, htree⟩
  refine ⟨?_, ?_, ?_, ?_, [], st.tree, Session.Touches.refl _, fun _ _ => not_mem_nil, htree⟩
  · show _ = [] ++ ((Item.sep k :: n.items) ++ [])
    rw [append_nil]
    rfl
  · show _ = [] ++ (n.leafIds ++ [])
    rw [append_nil]
    rfl
  · intro e he
    have hp := hprinted e (mem_append_right _ (mem_append_left _ he))
    obtain ⟨id, c⟩ := e
    rw [htree]
    cases c <;> exact hp
  · have hids : (Tower.level [(k, n)] .top).ids = n.ids := append_nil n.ids
    rw [hids] at hl
    rw [htree]
    exact ⟨hl.four, hl.law, hl.drawn⟩

/-- **The levels close into one root.**  Each turn stands one level higher, where
    fewer children were seen. -/
theorem finishFrom_returns (turns : Nat) :
    ∀ {h : Nat} (T : Tower PageId Bytes Stored h) {below as : List LevelAccum} {owned : List PageId}
      {st : Loading}, st.loader.levels = below ++ as →
      (∀ j, Item.sep j ∈ T.items → separatorFits j.length st.tree.pageSize = true) →
      Stacked st.tree.pageSize T as → (∀ e ∈ T.cells, st.tree.Printed e.1 e.2) →
      Ledger source st.tree (T.ids ++ owned) → 0 < seen as → seen as ≤ turns →
      Returns Loading.Clear (finishFrom turns below.length) st fun _ st' =>
        ∃ (H : Nat) (k : Bytes) (n : PageTree H), Rooted source owned st st' T k n := by
  induction turns with
  | zero =>
    intro h T below as owned st _ _ _ _ _ hpos hturns
    omega
  | succ turns ih =>
    intro h T below as owned st hlevels hseps hstacked hprinted hl hpos hturns
    unfold finishFrom
    refine Returns.get ?_
    by_cases hone : seen as = 1
    · obtain ⟨k, n, a, rfl, rfl, hsole⟩ := hstacked.sole hone
      rw [hlevels, get_level]
      dsimp only
      rw [hsole]
      refine (setRoot_returns hprinted hl).weaken ?_
      rintro _ st' hroot
      exact ⟨h, k, n, hroot⟩
    · cases T with
      | top =>
        rw [show as = [] from hstacked] at hpos
        exact absurd hpos (Nat.lt_irrefl _)
      | level kids up =>
        obtain ⟨a, rest, rfl, hfills, hseen, hup⟩ := hstacked
        have hmany : ¬ a.total = 1 := hone
        have hnone : a.soleChild = none := by
          unfold LevelAccum.soleChild
          rw [if_neg hmany]
        obtain ⟨⟨k₀, first⟩, others, rfl⟩ := exists_cons_of_ne_nil hfills.some_kid
        obtain ⟨htake, hfits⟩ := hfills.takeNode
        rw [hlevels, get_level]
        dsimp only
        rw [hnone, htake]
        dsimp only
        refine (stepLoader_returns _).bind ?_
        rintro _ w hw
        have hwtree : w.tree = st.tree := by rw [hw]
        rw [← hwtree] at hseps hprinted hl hfits hup
        refine writeBranch_returns hfits hprinted hl ?_
        intro id st₁ hloader₁ hprinted₁ hl₁ ht₁ hfresh
        have hlevels₁ : st₁.loader.levels
            = (below ++ [{ a with children := [], used := HEADER_LEN }]) ++ rest := by
          rw [hloader₁, hw]
          show st.loader.levels.set below.length _ = _
          rw [hlevels, set_level, append_assoc]
          rfl
        have hlen : below.length + 1
            = (below ++ [({ a with children := [], used := HEADER_LEN } : LevelAccum)]).length := by
          rw [length_append]
          rfl
        have hk₀ : Item.sep k₀ ∈ (Tower.level ((k₀, first) :: others) up).items :=
          mem_append_right _ mem_cons_self
        have hseps₁ : ∀ j, Item.sep j ∈ (Tower.level ((k₀, first) :: others) up).items →
            separatorFits j.length st₁.tree.pageSize = true := ht₁.pageSize.symm ▸ hseps
        rw [hlen]
        refine (@pushChild_returns (h + 1) source up (Node.branch id first others) k₀ _ rest owned
          st₁ hlevels₁ (hseps₁ k₀ hk₀) (fun j hj => hseps₁ j (mem_append_left _ hj))
          (ht₁.pageSize.symm ▸ hup) hprinted₁ hl₁).bind ?_
        rintro _ st₂ ⟨up', rest', hp⟩
        obtain ⟨ws, ht₂, hws⟩ := hp.kept
        have hitems : up'.items = (Tower.level ((k₀, first) :: others) up).items := hp.items
        have hfewer := seen_lt hfills hseen hmany
        have htotal : seen (a :: rest) = a.total := rfl
        refine (@ih (h + 1) up' _ rest' owned st₂ (by rw [hp.loader]) ?_ ?_ hp.printed hp.ledger
          ?_ ?_).weaken ?_
        · rw [hitems, ht₂.pageSize]
          exact hseps₁
        · rw [ht₂.pageSize]
          exact hp.stacked
        · rw [hp.seen]
          exact Nat.succ_pos _
        · rw [hp.seen]
          omega
        · rintro _ st' ⟨H, k, n, hr⟩
          obtain ⟨ws', s, ht₃, hws', htree⟩ := hr.kept
          have hleaves : up'.leafIds = (Tower.level ((k₀, first) :: others) up).leafIds := by
            rw [hp.leaves, leafIds_branch id k₀]
            rfl
          refine ⟨H, k, n, hr.items.trans hitems, hr.leaves.trans hleaves, hr.printed, hr.ledger,
            ([id] ++ ws) ++ ws', s, ?_, ?_, htree⟩
          · rw [← hwtree]
            exact (ht₁.trans ht₂).trans ht₃
          · intro p hp' hmem
            have hids : p ∈ (Tower.level ((k₀, first) :: others) up).ids ++ owned := by
              rcases mem_append.mp hp' with hp' | hp'
              · exact mem_append_left _ (Tower.leafIds_subset _ hp')
              · exact mem_append_right _ hp'
            rcases mem_append.mp hmem with hmem | hmem
            · rcases mem_append.mp hmem with hmem | hmem
              · exact hfresh p hids hmem
              · exact hws p (mem_below_branch hids) hmem
            · rw [← hleaves] at hp'
              exact hws' p hp' hmem

end Finish

/-! ## §2. The tree -/

/-- The pages of the leaves from left to right. -/
def Image.leafIds : Image → List PageId
  | .empty => []
  | .tree t => t.leafIds

/-- The session holds the image of a bulk load of `records`. -/
structure LoadedAs (s : Session) (records : List (Bytes × Bytes)) (i : Image) : Prop where
  root : i.root = s.rootPageId
  records : i.records = records
  printed : ∀ e ∈ i.cells, s.Printed e.1 e.2
  separators : ∀ left k right, i.items = left ++ .sep k :: right →
    (∀ r ∈ recordsOf left, r.1 < k) ∧ ∀ r ∈ recordsOf right, k ≤ r.1
  depth : ∃ d, ∀ l ∈ i.leafPaths, l.2.length = d
  linked : s.Chained 0 i.leafIds

/-- No leaf is cached. -/
def Session.Uncached (s : Session) : Prop :=
  ∀ id, s.freshLeaves.lookup id = none ∧ s.dirtyLeaves.lookup id = none

theorem Caches.uncached {s : Session} {retired : List PageId} (hc : Caches s [] [] retired) :
    s.Uncached := fun id =>
  ⟨AList.lookup_eq_none.mpr fun h => absurd (hc.fresh_mem id h) not_mem_nil,
    AList.lookup_eq_none.mpr fun h => absurd (hc.dirty_mem id h) not_mem_nil⟩

section Tree

variable {g : Surroundings} {retired : List PageId} {st st' : Loading}
  {T : Tower PageId Bytes Stored 0} {blocks : List (List (Bytes × Stored))}

variable {s : Session}

theorem Session.Printed.shows {id : PageId} {c : Cell PageId Bytes Stored} (h : s.Printed id c)
    (hf : s.freshLeaves.lookup id = none) (hd : s.dirtyLeaves.lookup id = none) : s.Shows id c := by
  cases c with
  | leaf records =>
    obtain ⟨leaf, hpage, hrecords, -⟩ := h
    refine (Session.look_page hf hd).trans ?_
    rw [hpage]
    exact congrArg (fun r => some (Sum.inl r)) hrecords
  | branch first rest =>
    refine (Session.look_page hf hd).trans ?_
    rw [h.1]
    rfl

/-- In a read-out in order a separator parts the records. -/
theorem separator_parts {items left right : List (Item Bytes Stored)} {k : Bytes}
    (hord : InOrder items) (hitems : items = left ++ .sep k :: right) :
    (∀ r ∈ recordsOf left, r.1 < k) ∧ ∀ r ∈ recordsOf right, k ≤ r.1 := by
  rw [hitems] at hord
  obtain ⟨-, hright, hcross⟩ := pairwise_append.mp hord
  exact ⟨fun r hr => hcross _ (mem_recordsOf.mp hr) _ mem_cons_self,
    fun r hr => (pairwise_cons.mp hright).1 _ (mem_recordsOf.mp hr)⟩

/-- **The root of a finished load carries everything that was taken in.** -/
theorem Rooted.loaded {H : Nat} {k : Bytes} {n : PageTree H}
    (hs : Loads g retired [] st T blocks []) (hnone : st.loader.leafPageId = none)
    (hasc : Ascending (blocks.flatten.map Stored.record))
    (hr : Rooted g.source (pagesOf (blocks.flatten ++ []) ++ (retired ++ g.others)) st st' T k n) :
    Carries g st'.tree retired (.tree n)
      ∧ LoadedAs st'.tree (blocks.flatten.map Stored.record) (.tree n) ∧ st'.tree.Uncached := by
  obtain ⟨ws, s, ht, hws, htree⟩ := hr.kept
  have hitems : Item.sep k :: n.items = blocks.flatMap block := hr.items.trans hs.items
  have hrecords : recordsOf n.items = blocks.flatten := by
    rw [← recordsOf_blocks blocks, ← hitems]
    rfl
  have hord : InOrder n.items := by
    have hall : InOrder (blocks.flatMap block) := inOrder_blocks (ascending_stored.mp hasc)
    rw [← hitems] at hall
    exact (pairwise_cons.mp hall).2
  have hcaches : Caches st'.tree [] [] retired := by
    have hc := hs.caches.kept ht
    rw [htree]
    exact ⟨hc.fresh_mem, hc.dirty_mem, hc.apart, hc.paged, hc.path_keys, hc.path_mem, hc.scheduled⟩
  have huncached := hcaches.uncached
  have hpage : ∀ p, p ∉ ws → st'.tree.pager.page p = st.tree.pager.page p := by
    intro p hp
    rw [htree]
    exact ht.page hp
  refine ⟨⟨⟨⟨?_, ?_, hcaches.apart, hcaches.paged, hcaches.path_keys, ?_, hcaches.scheduled⟩, hord,
    ?_, ?_⟩, ?_, ?_⟩, ⟨?_, ?_, hr.printed, fun left k right => separator_parts hord, ⟨H, ?_⟩, ?_⟩,
    huncached⟩
  · exact fun p hp => absurd (hcaches.fresh_mem p hp) not_mem_nil
  · exact fun p hp => absurd (hcaches.dirty_mem p hp) not_mem_nil
  · exact fun p path hp => absurd (hcaches.path_mem p path hp) not_mem_nil
  · intro r hmem
    have hmem : r ∈ blocks.flatten := hrecords ▸ hmem
    have hmem : r ∈ blocks.flatten ++ [] := mem_append_left _ hmem
    refine (hs.values r hmem).congr fun p hp => hpage p (hws p ?_)
    exact mem_append_right _ (mem_append_left _ (mem_flatMap.mpr ⟨r, hmem, hp⟩))
  · show Ledger g.source st'.tree (n.ids ++ (valuePages n.items ++ (retired ++ g.others)))
    unfold valuePages
    rw [hrecords]
    have hl := hr.ledger
    rwa [append_nil] at hl
  · exact fun e he => (hr.printed e he).shows (huncached e.1).1 (huncached e.1).2
  · rw [htree]
    rfl
  · rw [htree]
    rfl
  · show (recordsOf n.items).map Stored.record = _
    rw [hrecords]
  · exact fun l hl => Node.leafPaths_length hl
  · show st'.tree.Chained 0 n.leafIds
    have hlinked := hs.linked
    rw [hnone, ← hr.leaves] at hlinked
    exact hlinked.congr fun p hp => hpage p (hws p (mem_append_left _ (hr.leaves ▸ hp)))

/-- The last leaf is closed, and the levels after it. -/
theorem finishLeaves_returns (hs : Loads g retired [] st T blocks [])
    (hnone : st.loader.leafPageId = none) (hasc : Ascending (blocks.flatten.map Stored.record))
    (hne : blocks.flatten ≠ []) :
    Returns Loading.Clear (do
        let l := (← get).loader
        if l.leafCount = 0 then pure ()
        else if l.leafCount = 1 then stepTree (setRoot l.firstLeafPageId)
        else finishFrom l.leafCount 0) st fun _ st' => ∃ i, Carries g st'.tree retired i
      ∧ LoadedAs st'.tree (blocks.flatten.map Stored.record) i ∧ st'.tree.Uncached := by
  have hpos : seen st.loader.levels ≠ 0 := by
    intro h0
    have htop := hs.stacked.eq_top h0
    have hitems := hs.items
    rw [htop] at hitems
    refine hne ?_
    rw [← recordsOf_blocks blocks, ← hitems]
    rfl
  have hl : Ledger g.source st.tree (T.ids ++ (pagesOf (blocks.flatten ++ []) ++ (retired
      ++ g.others))) := by
    have hl := hs.ledger
    rw [hnone] at hl
    exact hl
  refine Returns.get ?_
  dsimp only
  rw [← hs.counted, if_neg hpos]
  by_cases hone : seen st.loader.levels = 1
  · obtain ⟨k, n, a, rfl, -, -⟩ := hs.stacked.sole hone
    have hfirst : n.id = st.loader.firstLeafPageId := by
      refine hs.first n.id ?_
      obtain ⟨id, records, rfl⟩ := n.exists_leaf
      rfl
    rw [if_pos hone, ← hfirst]
    refine (setRoot_returns hs.printed hl).weaken ?_
    rintro _ st' hr
    exact ⟨.tree n, hr.loaded hs hnone hasc⟩
  · rw [if_neg hone]
    have hseps : ∀ j, Item.sep j ∈ T.items → separatorFits j.length st.tree.pageSize = true :=
      hs.sep_fits
    refine (@finishFrom_returns g.source (seen st.loader.levels) 0 T [] st.loader.levels _ st rfl hseps
      hs.stacked hs.printed hl (Nat.pos_of_ne_zero hpos) (Nat.le_refl _)).weaken ?_
    rintro _ st' ⟨H, k, n, hr⟩
    exact ⟨.tree n, hr.loaded hs hnone hasc⟩

/-- **`finish` leaves the tree of all records that were taken in.** -/
theorem finish_returns {records : List (Bytes × Bytes)} (hs : Taken g retired st records)
    (hroot : st.tree.rootPageId = 0) (hasc : Ascending records) :
    Returns Loading.Clear finish st fun _ st' => ∃ i, Carries g st'.tree retired i
      ∧ LoadedAs st'.tree records i ∧ st'.tree.Uncached := by
  obtain ⟨T, blocks, opened, hs⟩ := hs
  have htaken := hs.taken
  unfold finish closeLast
  rw [bind_assoc]
  refine Returns.get ?_
  rw [hs.loads.leaf]
  cases hopened : opened with
  | nil =>
    -- nothing was taken in
    subst hopened
    obtain ⟨hleaves, hnone⟩ := hs.started rfl
    have hcount : st.loader.leafCount = 0 := by
      rw [← hs.loads.leaves, hleaves]
      rfl
    have htop : T = .top := hs.loads.stacked.eq_top (hs.loads.counted.trans hcount)
    have hflat : blocks.flatten = [] := by
      have hitems := hs.loads.items
      rw [htop] at hitems
      rw [← recordsOf_blocks blocks, ← hitems]
      rfl
    rw [hflat] at htaken
    subst htaken
    rw [show (leafRecords []).isEmpty = true from rfl, if_pos rfl, pure_bind]
    refine Returns.get ?_
    dsimp only
    rw [if_pos hcount]
    have hl := hs.loads.ledger
    rw [htop, hnone, hflat] at hl
    refine Returns.pure ⟨.empty, ⟨⟨hs.loads.caches, List.Pairwise.nil,
      by rintro _ ⟨⟩, hl⟩, by rintro _ ⟨⟩,
      hroot.symm⟩, ⟨hroot.symm, rfl, by rintro _ ⟨⟩, ?_, ⟨0, ?_⟩, trivial⟩,
      hs.loads.caches.uncached⟩
    · intro left k right hitems
      exact absurd hitems (by simp [Image.items])
    · rintro _ ⟨⟩
  | cons r rs =>
    subst hopened
    rw [show (leafRecords (r :: rs)).isEmpty = false from rfl, if_neg Bool.false_ne_true]
    refine (closeLeaf_returns hs.loads (cons_ne_nil _ _) hs.reserved).bind ?_
    rintro _ st₁ ⟨T', h₁, -, hsome, -⟩
    have hnone : st₁.loader.leafPageId = none :=
      Option.not_isSome_iff_eq_none.mp fun h => by
        rw [hsome] at h
        cases h
    have hflat : (blocks ++ [r :: rs]).flatten = blocks.flatten ++ r :: rs := by simp
    have hall : (blocks ++ [r :: rs]).flatten.map Stored.record = records := by
      rw [hflat]
      exact htaken
    rw [← hall] at hasc ⊢
    exact finishLeaves_returns h₁ hnone hasc (by rw [hflat]; simp)

theorem taken_new (hs : Carries g s retired .empty) : Taken g retired ⟨s, BulkLoader.new⟩ [] := by
  have hl : Ledger g.source s ([] ++ ([] ++ ([] ++ ([] ++ (retired ++ g.others))))) :=
    hs.live.ledger
  refine ⟨.top, [], [], ⟨⟨rfl, rfl, rfl, nofun, trivial, rfl,
    fun id hid => absurd hid (Option.not_mem_none id), rfl, rfl, fun hne => absurd rfl hne,
    nofun, nofun, hl,
    hs.live.caches⟩, rfl, fun _ => ⟨rfl, rfl⟩, fun _ => rfl, rfl⟩⟩

theorem withLoader_returns {x : LoadM Unit} {Q : Unit → Session → Prop}
    (h : Returns Loading.Clear x ⟨s, BulkLoader.new⟩ fun a st' => Q a st'.tree) :
    Returns Session.Clear (withLoader x) s Q where
  sound := by
    intro a s' hrun
    unfold withLoader at hrun
    cases hx : x ⟨s, BulkLoader.new⟩ with
    | ok b st =>
      rw [hx] at hrun
      cases hrun
      exact h.sound _ _ hx
    | error e st =>
      rw [hx] at hrun
      cases hrun
  total := by
    intro hclear
    obtain ⟨a, st, hx, hst⟩ := h.total hclear
    refine ⟨a, st.tree, ?_, hst⟩
    unfold withLoader
    rw [hx]

/-- **Every accepted ascending input is loaded.** -/
theorem bulkLoad_returns {batches : List (List (Bytes × Bytes))} (hs : Carries g s retired .empty)
    (hasc : Ascending batches.flatten)
    (hfits : ∀ r ∈ batches.flatten, recordFits s.pageSize r = true) :
    Returns Session.Clear (bulkLoad batches) s fun _ s' => ∃ i, Carries g s' retired i
      ∧ LoadedAs s' batches.flatten i ∧ s'.Uncached := by
  have hroot : s.rootPageId = 0 := hs.root.symm
  unfold bulkLoad
  refine Returns.get ?_
  rw [if_pos hroot]
  refine withLoader_returns ?_
  refine (pushBatches_returns batches (taken_new hs) (by rwa [nil_append]) hfits).bind ?_
  rintro _ st ⟨hst, ws, ht⟩
  rw [nil_append] at hst
  refine finish_returns hst ?_ hasc
  obtain ⟨n, f, r, c, d, pager, htree, -⟩ := ht
  rw [htree]
  exact hroot

theorem LoadedAs.map_eq {records : List (Bytes × Bytes)} {i : Image} (h : LoadedAs s records i)
    (k : Bytes) : i.map k = find k records := by
  rw [← h.records]
  unfold Image.map contents Image.records find
  rw [find?_map, Option.map_map, Option.map_map]
  rfl

end Tree

/-- **A bulk load builds the tree it was given.**  From an empty tree over any
    pages, ascending accepted records in any batches are loaded if no await fails;
    what is loaded reads out as the input, every page fits, separators part the
    records, all leaves lie at one depth and each links to the next, and every key
    is found.  And a batch out of order or with a record too large leaves the loader
    and the tree as they were. -/
theorem bulk_load_builds_input (base : Session) (next : PageId) (threshold : Option PageId)
    (cache consumed : List PageId) (hsource : SourceOk (max next 4) cache)
    (batches : List (List (Bytes × Bytes))) (hasc : Ascending batches.flatten)
    (hfits : ∀ r ∈ batches.flatten, recordFits base.pageSize r = true) :
    Returns Session.Clear (bulkLoad batches) (base.reopen 0 next threshold cache consumed)
        (fun _ s => (∃ i, LoadedAs s batches.flatten i)
          ∧ ∀ k, Returns Session.Clear (treeGet k) s fun v _ => v = find k batches.flatten)
      ∧ ∀ st, pushBatches batches ⟨base.reopen 0 next threshold cache consumed, BulkLoader.new⟩
          = .ok () st →
        ∀ batch, ¬ (Ascending (batches.flatten ++ batch)
            ∧ ∀ r ∈ batch, recordFits base.pageSize r = true) →
          ∃ e, (e = .bulkLoadNotMonotonic ∨ e = .payloadTooLarge)
            ∧ pushBatch batch st = .error e st := by
  obtain ⟨g, hempty⟩ : ∃ g, Carries g (base.reopen 0 next threshold cache consumed) [] .empty :=
    carries_empty hsource
  constructor
  · refine (bulkLoad_returns hempty hasc hfits).weaken ?_
    rintro _ s ⟨i, hs, hloaded, -⟩
    refine ⟨⟨i, hloaded⟩, fun k => (hs.readable.treeGet_returns k).weaken ?_⟩
    rintro v _ ⟨rfl, -⟩
    exact hloaded.map_eq k
  · intro st hrun batch hbad
    obtain ⟨htaken, ws, ht⟩ := (pushBatches_returns batches (taken_new hempty)
      (by rwa [nil_append]) hfits).sound _ _ hrun
    rw [nil_append] at htaken
    refine pushBatch_rejected htaken hasc ?_
    rw [ht.pageSize]
    exact hbad

/-- Two batches over a source with one free page. -/
theorem bulk_load_builds_two_batches :
    let base : Session := { BTree.open 4096 0 4 none with
      pager := ⟨[], [], [], []⟩, cache := [], consumed := [] }
    let batches : List (List (Bytes × Bytes)) := [[([1], [2]), ([3], [4])], [([5], [6])]]
    ∃ s, bulkLoad batches (base.reopen 0 7 (some 7) [5] []) = .ok () s
      ∧ ∃ i, LoadedAs s batches.flatten i := by
  intro base batches
  have h := (bulk_load_builds_input base 7 (some 7) [5] [] ⟨by decide, by decide, by decide⟩ batches
    (by decide) (by decide)).1
  obtain ⟨_, s, hrun, -⟩ := h.total rfl
  exact ⟨s, hrun, (h.sound _ _ hrun).1⟩

/-! ## §3. The size of the open leaf -/

/-- **The projected size is the size the encoder needs.**  After any accepted records,
    for any next record in order: the projected size is what the encoder compares with
    the page, so the open leaf is closed exactly if the record does not fit into it; and
    a leaf under construction encodes, whatever its siblings are. -/
theorem bulk_leaf_size_exact (ps : Segment.PageSize) (base : Session)
    (hbase : base.pageSize = ps.bytes) (next : PageId) (threshold : Option PageId)
    (cache consumed : List PageId) (hsource : SourceOk (max next 4) cache)
    (records : List (Bytes × Bytes)) (hasc : Ascending records)
    (hfits : ∀ r ∈ records, recordFits base.pageSize r = true) (st : Loading)
    (hrun : appendRecords records ⟨base.reopen 0 next threshold cache consumed, BulkLoader.new⟩
      = .ok () st) :
    (∀ key v, (∀ r ∈ records, r.1 < key) →
        projectedEncodedSize st.loader key (leafRecordCost key.length v)
          = .ok (leafNeeded (st.loader.leafRecords ++ [(key, v)])))
      ∧ (∀ key value v st₁, (∀ r ∈ records, r.1 < key) →
          stepTree (leafValueFor value) st = .ok v st₁ →
          appendRecord key value st = (do
            if sliceFits (st.loader.leafRecords ++ [(key, v)]) ps.bytes = false
                ∧ st.loader.leafRecords ≠ [] then closeLeaf true
            else pure ()
            stepLoader fun l => { l with
              leafUsed := l.leafUsed + leafRecordCost key.length v
              lastKey := some key
              leafRecords := l.leafRecords ++ [(key, v)] } : LoadM Unit) st₁)
      ∧ (st.loader.leafRecords ≠ [] → ∀ left right buffer, buffer.length = bodyCapacity ps.bytes →
          ∃ body, Leaf.encode ⟨left, right, st.loader.leafRecords⟩ buffer = .ok body)
      ∧ ∀ (leaf : Leaf) buffer, buffer.length < leafNeeded leaf.records →
          leaf.encode buffer = .error .payloadTooLarge := by
  obtain ⟨g, hempty⟩ : ∃ g, Carries g (base.reopen 0 next threshold cache consumed) [] .empty :=
    carries_empty hsource
  obtain ⟨⟨T, blocks, opened, hs⟩, ws, ht⟩ := (appendRecords_returns records (taken_new hempty)
    (by rwa [nil_append]) hfits).sound _ _ hrun
  rw [nil_append] at hs
  have hsize : st.tree.pageSize = ps.bytes := ht.pageSize.trans hbase
  refine ⟨fun key v habove => ?_, fun key value v st₁ habove hvalue => ?_,
    fun hopen left right buffer hbuffer => ?_, fun leaf buffer => leaf.encode_refuses⟩
  · exact projectedEncodedSize_eq (hs.ascending rfl hasc habove) hs.loads.used_eq
  · obtain ⟨hloader, w, -, -, -, -, ht₁⟩ : st₁.loader = st.loader
        ∧ ∃ w : Stored, w.bytes = value ∧ w.leafValue = v ∧ w.Held st₁.tree.pager
          ∧ Ledger g.source st₁.tree (w.pages ++ _) ∧ st.tree.Touches w.pages st₁.tree := by
      unfold stepTree at hvalue
      cases hx : leafValueFor value st.tree with
      | error e s =>
        rw [hx] at hvalue
        cases hvalue
      | ok a s =>
        rw [hx] at hvalue
        cases hvalue
        exact ⟨rfl, leafValueFor_spec hs.loads.ledger hx⟩
    unfold appendRecord
    rw [bind_of_ok hvalue, get_bind, hloader, ht₁.pageSize, hsize,
      projectedEncodedSize_eq (hs.ascending rfl hasc habove) hs.loads.used_eq]
    simp only [Bool.eq_false_iff, ne_eq, sliceFits_iff, Nat.not_le, Bool.and_eq_true,
      decide_eq_true_eq, Bool.not_eq_true', List.isEmpty_iff, gt_iff_lt]
  · refine ⟨_, Leaf.encode_eq (hs.opened_ascending hasc) (fun r hr => ?_)
      (hbuffer ▸ bodyCapacity_le ps) ?_⟩
    · -- the roots of chains are pages the loader owns
      rw [show r ∈ st.loader.leafRecords ↔ r ∈ leafRecords opened by rw [hs.loads.leaf]] at hr
      obtain ⟨⟨key, bytes, pages⟩, hx, rfl⟩ := mem_map.mp hr
      cases pages with
      | nil => trivial
      | cons root pages =>
        have hroot : root ∈ pagesOf (blocks.flatten ++ opened) :=
          mem_flatMap.mpr ⟨_, mem_append_right _ hx, mem_cons_self⟩
        refine (hs.loads.ledger.bounds (mem_append_right _ (mem_append_right _ ?_))).1
        exact mem_append_right _ (mem_append_left _ hroot)
    · rw [hbuffer, ← hsize]
      refine sliceFits_iff.mp ?_
      rw [hs.loads.leaf] at hopen ⊢
      exact hs.loads.fits fun h => hopen (by rw [h]; rfl)

/-- Two records with a common prefix are appended to an empty tree. -/
theorem bulk_leaf_size_exact_two_records :
    let base : Session := { BTree.open 4096 0 4 none with
      pager := ⟨[], [], [], []⟩, cache := [], consumed := [] }
    ∃ st, appendRecords [([1, 2], [3]), ([1, 4], [5])] ⟨base.reopen 0 4 none [] [], BulkLoader.new⟩
        = .ok () st
      ∧ projectedEncodedSize st.loader [1, 5] 11 = .ok (leafNeeded (st.loader.leafRecords
        ++ [([1, 5], .inline [6, 7, 8])])) := by
  intro base
  refine exists_ok_imp (P := fun _ => True) (by decide +kernel) fun st hrun _ => ?_
  exact (bulk_leaf_size_exact ⟨4096, 12, rfl⟩ base rfl 4 none [] [] ⟨by decide, by decide, by decide⟩
    _ (by decide) (by decide) st hrun).1 [1, 5] (.inline [6, 7, 8]) (by decide)

end Pagedb
