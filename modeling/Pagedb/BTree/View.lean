/-
  Pagedb.BTree.View — what a tree session shows.

  The live tree is spread over three layers: fresh leaves shadow dirty leaves,
  dirty leaves shadow pages.  `Session.look` is what a lookup sees through all
  three.  A session shows a search tree (`Lib.Node`) whose values carry their
  bytes and the overflow pages that hold them; reading it is total when no
  await fails.

    * `descendFrom_returns` — a descent ends at the leaf its choices lead to;
    * `readChain_returns`   — a held value is read back whole.
-/
import Pagedb.BTree.Tree

namespace Pagedb

open Lib List

/-! ## §1. Values -/

/-- A value of the tree: its bytes, and the overflow pages that hold them if
    they are not in the leaf itself. -/
structure Stored where
  bytes : Bytes
  pages : List PageId

/-- What the leaf holds for the value. -/
def Stored.leafValue : Stored → LeafValue
  | ⟨bytes, []⟩ => .inline bytes
  | ⟨bytes, root :: _⟩ => .overflow bytes.length root

/-- From `link` on, the pager holds a chain over `pages` that spells `data`. -/
def ChainFrom (pager : Pager) : List PageId → PageId → Bytes → Prop
  | [], link, data => link = 0 ∧ data = []
  | p :: pages, link, data => link = p ∧ ∃ next chunk rest,
      pager.page p = some (.overflow next chunk) ∧ data = chunk ++ rest
        ∧ ChainFrom pager pages next rest

/-- The pager holds the value's overflow chain.  Only one leaf ever refers to a
    chain. -/
def Stored.Held (pager : Pager) : Stored → Prop
  | ⟨_, []⟩ => True
  | ⟨bytes, root :: pages⟩ => ∃ next chunk rest,
      pager.page root = some (.overflowRoot 1 next chunk) ∧ bytes = chunk ++ rest
        ∧ ChainFrom pager pages next rest

variable {pager : Pager} {pages : List PageId} {s : Session} {id : PageId} {leaf : Leaf}
  {node : Internal}

theorem ChainFrom.congr {pager' : Pager} :
    ∀ {link : PageId} {data : Bytes}, ChainFrom pager pages link data →
      (∀ p ∈ pages, pager'.page p = pager.page p) → ChainFrom pager' pages link data := by
  induction pages with
  | nil => intro link data h _; exact h
  | cons p pages ih =>
    rintro link data ⟨rfl, next, chunk, rest, hpage, rfl, hrest⟩ hsame
    refine ⟨rfl, next, chunk, rest, ?_, rfl, ?_⟩
    · rw [hsame link mem_cons_self]; exact hpage
    · exact ih hrest fun q hq => hsame q (mem_cons_of_mem _ hq)

theorem Stored.Held.congr {pager' : Pager} {v : Stored} (h : v.Held pager)
    (hsame : ∀ p ∈ v.pages, pager'.page p = pager.page p) : v.Held pager' := by
  obtain ⟨bytes, pages⟩ := v
  cases pages with
  | nil => exact trivial
  | cons root pages =>
    obtain ⟨next, chunk, rest, hpage, rfl, hrest⟩ := h
    refine ⟨next, chunk, rest, ?_, rfl, ?_⟩
    · rw [hsame root mem_cons_self]; exact hpage
    · exact hrest.congr fun q hq => hsame q (mem_cons_of_mem _ hq)

theorem ChainFrom.page_isSome : ∀ {link : PageId} {data : Bytes}, ChainFrom pager pages link data →
      ∀ p ∈ pages, (pager.page p).isSome := by
  induction pages with
  | nil => intro link data _ p hp; cases hp
  | cons q pages ih =>
    rintro link data ⟨rfl, next, chunk, rest, hpage, rfl, hrest⟩ p hp
    rcases mem_cons.mp hp with rfl | hp
    · rw [hpage]; rfl
    · exact ih hrest p hp

/-! ## §2. The three layers -/

/-- The node a page decodes to, if it is one. -/
def Page.node? : Page → Option (Records ⊕ Internal)
  | .leaf l => some (.inl l.records)
  | .internal n => some (.inr n)
  | _ => none

/-- The node a lookup sees at an id. -/
def Session.look (s : Session) (id : PageId) : Option (Records ⊕ Internal) :=
  match s.freshLeaves.lookup id with
  | some leaf => some (.inl leaf.records)
  | none =>
    match s.dirtyLeaves.lookup id with
    | some leaf => some (.inl leaf.records)
    | none => (s.pager.page id).bind Page.node?

/-- The records as a leaf holds them. -/
def leafRecords (records : List (Bytes × Stored)) : Records :=
  records.map fun r => (r.1, r.2.leafValue)

/-- The session shows `cell` at an id. -/
def Session.Shows (s : Session) (id : PageId) : Cell PageId Bytes Stored → Prop
  | .leaf records => s.look id = some (.inl (leafRecords records))
  | .branch first rest => s.look id = some (.inr { leftmostChild := first, entries := rest })

/-- A search tree of pages. -/
abbrev PageTree (h : Nat) := Node PageId Bytes Stored h

/-- Every dirty leaf still has the page it was read from. -/
def Session.DirtyPaged (s : Session) : Prop :=
  ∀ id ∈ s.dirtyLeaves, ∃ leaf, s.pager.page id = some (.leaf leaf)

/-- Two sessions that differ in the faults ahead at most. -/
def Session.Quiet (s s' : Session) : Prop :=
  ∃ faults, s' = { s with pager := s.pager.withFaults faults }

/-- No await fails from here on. -/
def Session.Clear (s : Session) : Prop := s.pager.faults = []

theorem Session.Quiet.refl (s : Session) : s.Quiet s := ⟨s.pager.faults, rfl⟩

theorem Session.Quiet.trans {t u : Session} (h : s.Quiet t) (h' : t.Quiet u) : s.Quiet u := by
  obtain ⟨faults, rfl⟩ := h
  obtain ⟨faults', rfl⟩ := h'
  exact ⟨faults', rfl⟩

theorem Session.Quiet.shows {s' : Session} (h : s.Quiet s') {c : Cell PageId Bytes Stored}
    (hc : s.Shows id c) : s'.Shows id c := by
  obtain ⟨faults, rfl⟩ := h
  cases c <;> exact hc

theorem Session.look_fresh (h : s.freshLeaves.lookup id = some leaf) :
    s.look id = some (.inl leaf.records) := by
  unfold Session.look
  rw [h]

theorem Session.look_dirty (hf : s.freshLeaves.lookup id = none)
    (h : s.dirtyLeaves.lookup id = some leaf) : s.look id = some (.inl leaf.records) := by
  unfold Session.look
  rw [hf, h]

theorem Session.look_page (hf : s.freshLeaves.lookup id = none)
    (hd : s.dirtyLeaves.lookup id = none) : s.look id = (s.pager.page id).bind Page.node? := by
  unfold Session.look
  rw [hf, hd]

/-- An internal node is only ever seen in the pager. -/
theorem Session.page_of_look_internal (h : s.look id = some (.inr node)) :
    s.pager.page id = some (.internal node)
      ∧ s.freshLeaves.lookup id = none ∧ s.dirtyLeaves.lookup id = none := by
  cases hf : s.freshLeaves.lookup id with
  | some leaf => rw [Session.look_fresh hf] at h; cases h
  | none =>
    cases hd : s.dirtyLeaves.lookup id with
    | some leaf => rw [Session.look_dirty hf hd] at h; cases h
    | none =>
      rw [Session.look_page hf hd] at h
      cases hp : s.pager.page id with
      | none => rw [hp] at h; cases h
      | some page =>
        rw [hp] at h
        cases page with
        | internal n =>
          have hn : n = node := by injection h with h; injection h
          rw [hn]
          exact ⟨rfl, rfl, rfl⟩
        | _ => cases h

/-! ## §3. Reads -/

theorem await_returns (s : Session) : Returns Session.Clear await s fun _ s' => s.Quiet s' := by
  unfold await
  refine Returns.get ?_
  cases hf : s.pager.faults with
  | nil => exact Returns.pure (Session.Quiet.refl s)
  | cons fault faults =>
    cases fault with
    | none =>
      refine ⟨?_, fun hclear => ?_⟩
      · intro a t h
        rw [set_eq_ok] at h
        exact ⟨faults, h⟩
      · unfold Session.Clear at hclear
        rw [hf] at hclear
        cases hclear
    | _ =>
      refine ⟨fun a t h => ?_, fun hclear => ?_⟩
      · obtain ⟨_, _, _, h⟩ := bind_eq_ok.mp h
        exact absurd h (by rw [throw_eq_ok]; exact not_false)
      · unfold Session.Clear at hclear
        rw [hf] at hclear
        cases hclear

theorem readPage_clear (hs : s.Clear) (id : PageId) :
    readPage id s = match s.pager.page id with
      | none => .error .unexpectedEof s
      | some page => .ok page s := by
  have hawait : await s = .ok () s := by
    unfold await
    rw [get_bind]
    have hnil : s.pager.faults = [] := hs
    rw [hnil]
    rfl
  unfold readPage
  rw [bind_of_ok hawait, get_bind]
  cases s.pager.page id <;> rfl

theorem readPage_returns {page : Page} (h : s.pager.page id = some page) :
    Returns Session.Clear (readPage id) s fun p s' => p = page ∧ s.Quiet s' := by
  unfold readPage
  refine (await_returns s).bind ?_
  rintro _ t ⟨faults, rfl⟩
  refine Returns.get ?_
  dsimp only
  rw [Pager.page_withFaults, h]
  exact Returns.pure ⟨rfl, faults, rfl⟩

theorem readPage_pure {α : Type} {f : Page → TreeM α} {page : Page} {a : α}
    (h : s.pager.page id = some page) (hf : f page = pure a) :
    Returns Session.Clear (readPage id >>= f) s fun r s' => r = a ∧ s.Quiet s' := by
  refine (readPage_returns h).bind ?_
  rintro _ t ⟨rfl, hq⟩
  rw [hf]
  exact Returns.pure ⟨rfl, hq⟩

theorem readNodeGuard_leaf (h : s.pager.page id = some (.leaf leaf)) :
    Returns Session.Clear (readNodeGuard id) s fun n s' => n = .inl leaf ∧ s.Quiet s' :=
  readPage_pure h rfl

theorem readNodeGuard_internal (h : s.pager.page id = some (.internal node)) :
    Returns Session.Clear (readNodeGuard id) s fun n s' => n = .inr node ∧ s.Quiet s' :=
  readPage_pure h rfl

theorem readInternal_returns (h : s.pager.page id = some (.internal node)) :
    Returns Session.Clear (readInternal id) s fun n s' => n = node ∧ s.Quiet s' :=
  readPage_pure h rfl

theorem decodeLeaf_returns (h : s.pager.page id = some (.leaf leaf)) :
    Returns Session.Clear (decodeLeafFromPager id) s fun l s' => l = leaf ∧ s.Quiet s' :=
  readPage_pure h rfl

/-- The main.db pages as a read sees them. -/
abbrev PageView := PageId → Option Page

/-- What reads of a pager see. -/
def Pager.view (p : Pager) : PageView := p.page

theorem await_eq_ok (h : await s = .ok () s') : s.Quiet s' :=
  (await_returns s).sound () s' h

theorem readPage_eq_ok
    {page : Page} (h : readPage id s = .ok page s') : s.pager.view id = some page ∧ s.Quiet s' := by
  unfold readPage at h
  obtain ⟨_, u, hawait, h⟩ := bind_eq_ok.mp h
  obtain ⟨faults, rfl⟩ := await_eq_ok hawait
  obtain ⟨_, v, hget, h⟩ := bind_eq_ok.mp h
  obtain ⟨rfl, rfl⟩ := get_eq_ok.mp hget
  cases hpage : s.pager.page id with
  | none =>
    rw [Pager.page_withFaults, hpage] at h
    exact (throw_eq_ok.mp h).elim
  | some found =>
    rw [Pager.page_withFaults, hpage] at h
    obtain ⟨rfl, rfl⟩ := pure_eq_ok.mp h
    exact ⟨hpage, faults, rfl⟩

theorem decodeLeafFromPager_eq_ok (h : decodeLeafFromPager id s = .ok leaf s') :
    s.pager.page id = some (.leaf leaf) ∧ s.Quiet s' := by
  unfold decodeLeafFromPager at h
  obtain ⟨page, t, hread, h⟩ := bind_eq_ok.mp h
  obtain ⟨hpage, hq⟩ := readPage_eq_ok hread
  cases page with
  | leaf l =>
    cases h
    exact ⟨hpage, hq⟩
  | _ => cases h

theorem Pager.length_le_pageCount {p : Pager} {ids : List PageId} (hnodup : ids.Nodup)
    (hpages : ∀ id ∈ ids, (p.page id).isSome) : ids.length ≤ p.pageCount := by
  have hsub : ids ⊆ (p.dirty ++ p.disk).map Prod.fst := by
    intro id hid
    obtain ⟨page, hpage⟩ := Option.isSome_iff_exists.mp (hpages id hid)
    exact Pager.mem_of_page hpage
  have hle := (subperm_of_subset hnodup hsub).length_le
  rwa [length_map] at hle

/-! ## §4. Chains -/

theorem readChainPage_returns {next : PageId} {data : Bytes}
    (h : s.pager.page id = some (.overflow next data)) :
    Returns Session.Clear (readChainPage id) s fun r s' => r = (next, data) ∧ s.Quiet s' :=
  readPage_pure h rfl

theorem readRootPage_returns {next : PageId} {refcount : Nat} {data : Bytes}
    (h : s.pager.page id = some (.overflowRoot refcount next data)) :
    Returns Session.Clear (readRootPage id) s
      fun r s' => r = (refcount, next, data) ∧ s.Quiet s' :=
  readPage_pure h rfl

/-- One link of a chain: its end, a page met before, or the next page. -/
def followLink {α : Type} (seen : List PageId) (next : PageId) (stop : TreeM α)
    (go : PageId × Bytes → TreeM α) : TreeM α :=
  if next = 0 then stop
  else if seen.contains next then throw .overflowChainCycle
  else readChainPage next >>= go

/-- The link to the next page of a held chain is followed. -/
theorem followLink_returns {α : Type} {seen : List PageId} {link next : PageId} {data : Bytes}
    {stop : TreeM α} {go : PageId × Bytes → TreeM α} {Q : α → Session → Prop}
    (hpage : s.pager.page link = some (.overflow next data)) (hnodup : (seen ++ link :: pages).Nodup)
    (hzero : 0 ∉ link :: pages)
    (hgo : ∀ t, s.Quiet t → Returns Session.Clear (go (next, data)) t Q) :
    Returns Session.Clear (followLink seen link stop go) s Q := by
  have hne : link ≠ 0 := fun h => hzero (h ▸ mem_cons_self)
  have hseen : ¬ seen.contains link = true := by
    rw [contains_iff_mem]
    intro hmem
    exact disjoint_of_nodup_append hnodup hmem mem_cons_self
  unfold followLink
  rw [if_neg hne, if_neg hseen]
  refine (readChainPage_returns hpage).bind ?_
  rintro _ t ⟨rfl, hq⟩
  exact hgo t hq

theorem Session.Quiet.page (h : s.Quiet s') (q : PageId) : s'.pager.page q = s.pager.page q := by
  obtain ⟨faults, rfl⟩ := h
  rfl

/-- The walk over a held chain collects exactly its pages. -/
theorem walkChain_returns (pages : List PageId) :
    ∀ (turns : Nat) (seen : List PageId) (link : PageId) (data : Bytes) (s : Session),
      ChainFrom s.pager pages link data → (seen ++ pages).Nodup → 0 ∉ pages →
      pages.length < turns →
      Returns Session.Clear (walkChain turns seen link) s
        fun r s' => r.map Prod.fst = pages ∧ s.Quiet s' := by
  induction pages with
  | nil =>
    rintro (_ | turns) seen link data s ⟨rfl, -⟩ - - hturns
    · exact absurd hturns (Nat.not_lt_zero _)
    · exact Returns.pure ⟨rfl, Session.Quiet.refl s⟩
  | cons p pages ih =>
    rintro (_ | turns) seen link data s ⟨rfl, next, chunk, rest, hpage, rfl, hrest⟩ hnodup hzero hturns
    · exact absurd hturns (Nat.not_lt_zero _)
    refine followLink_returns hpage hnodup hzero fun t hq => ?_
    refine (ih turns (link :: seen) next rest t (hrest.congr fun q _ => hq.page q)
      ((perm_middle.nodup_iff).mp hnodup) (fun h => hzero (mem_cons_of_mem _ h))
      (Nat.lt_of_succ_lt_succ hturns)).bind ?_
    rintro r u ⟨hr, hq'⟩
    refine Returns.pure ⟨?_, hq.trans hq'⟩
    rw [map_cons, hr]

theorem ChainFrom.turns {link : PageId} {data : Bytes} (h : ChainFrom s.pager pages link data)
    (hnodup : pages.Nodup) : pages.length < s.pager.pageCount + 1 :=
  Nat.lt_succ_of_le (Pager.length_le_pageCount hnodup fun q hq => h.page_isSome q hq)

/-- The pages after a root page, with as many turns as there are pages. -/
theorem walkRest_returns {root next : PageId} {data : Bytes}
    (hrest : ChainFrom s.pager pages next data) (hnodup : (root :: pages).Nodup) (hzero : 0 ∉ pages) :
    Returns Session.Clear (walkChain (s.pager.pageCount + 1) [root] next) s
      fun r s' => r.map Prod.fst = pages ∧ s.Quiet s' :=
  walkChain_returns pages _ [root] next data s hrest hnodup hzero
    (hrest.turns (nodup_cons.mp hnodup).2)

theorem readChainFrom_returns (pages : List PageId) :
    ∀ (turns : Nat) (seen : List PageId) (link : PageId) (data out : Bytes) (s : Session),
      ChainFrom s.pager pages link data → (seen ++ pages).Nodup → 0 ∉ pages →
      pages.length < turns →
      Returns Session.Clear (readChainFrom (out.length + data.length) turns seen link out) s
        fun r s' => r = out ++ data ∧ s.Quiet s' := by
  induction pages with
  | nil =>
    rintro (_ | turns) seen link data out s ⟨rfl, rfl⟩ - - hturns
    · exact absurd hturns (Nat.not_lt_zero _)
    · exact Returns.pure ⟨(append_nil out).symm, Session.Quiet.refl s⟩
  | cons p pages ih =>
    rintro (_ | turns) seen link data out s ⟨rfl, next, chunk, rest, hpage, rfl, hrest⟩ hnodup hzero
      hturns
    · exact absurd hturns (Nat.not_lt_zero _)
    refine followLink_returns hpage hnodup hzero fun t hq => ?_
    have hlen : out.length + (chunk ++ rest).length = (out ++ chunk).length + rest.length := by
      rw [length_append, length_append, Nat.add_assoc]
    have hfit : ¬ out.length + chunk.length > out.length + (chunk ++ rest).length := by
      rw [length_append]
      omega
    dsimp only
    rw [if_neg hfit, hlen]
    refine (ih turns (link :: seen) next rest (out ++ chunk) t (hrest.congr fun q _ => hq.page q)
      ((perm_middle.nodup_iff).mp hnodup) (fun h => hzero (mem_cons_of_mem _ h))
      (Nat.lt_of_succ_lt_succ hturns)).weaken ?_
    rintro r u ⟨rfl, hq'⟩
    exact ⟨append_assoc out chunk rest, hq.trans hq'⟩

theorem readChain_returns {root : PageId} {bytes : Bytes}
    (hheld : Stored.Held s.pager ⟨bytes, root :: pages⟩) (hnodup : (root :: pages).Nodup)
    (hzero : 0 ∉ pages) :
    Returns Session.Clear (readChain root bytes.length) s fun r s' => r = bytes ∧ s.Quiet s' := by
  obtain ⟨next, chunk, rest, hpage, rfl, hrest⟩ := hheld
  unfold readChain
  refine (readRootPage_returns hpage).bind ?_
  rintro _ t ⟨rfl, hq⟩
  have hfit : ¬ chunk.length > (chunk ++ rest).length := by
    rw [length_append]
    omega
  show Returns _ (if chunk.length > (chunk ++ rest).length then _ else _) t _
  rw [if_neg hfit]
  refine Returns.get ?_
  have hrest' := hrest.congr fun q _ => hq.page q
  have hturns := hrest'.turns (nodup_cons.mp hnodup).2
  rw [show (chunk ++ rest).length = chunk.length + rest.length from length_append]
  refine (readChainFrom_returns pages _ [root] next rest chunk t hrest' hnodup hzero hturns).bind ?_
  rintro out u ⟨rfl, hq'⟩
  show Returns _ (if (chunk ++ rest).length = chunk.length + rest.length then _ else _) u _
  rw [if_pos length_append]
  exact Returns.pure ⟨rfl, hq.trans hq'⟩

/-- A held value reads back as its bytes. -/
theorem resolveValue_returns {v : Option Stored}
    (hheld : ∀ w ∈ v, w.Held s.pager ∧ w.pages.Nodup ∧ 0 ∉ w.pages) :
    Returns Session.Clear (resolveValue (v.map Stored.leafValue)) s
      fun r s' => r = v.map Stored.bytes ∧ s.Quiet s' := by
  cases v with
  | none => exact Returns.pure ⟨rfl, Session.Quiet.refl s⟩
  | some v =>
    obtain ⟨hheld, hnodup, hzero⟩ := hheld v rfl
    obtain ⟨bytes, pages⟩ := v
    cases pages with
    | nil => exact Returns.pure ⟨rfl, Session.Quiet.refl s⟩
    | cons root pages =>
      refine (readChain_returns hheld hnodup fun h => hzero (mem_cons_of_mem _ h)).bind ?_
      rintro r t ⟨rfl, hq⟩
      exact Returns.pure ⟨rfl, hq⟩

/-! ## §5. Descent -/

/-- The open-coded search of `child_for` takes the child the separators name. -/
theorem Internal.childFor_eq (query : Bytes) (hs : node.entries.Pairwise fun a b => a.1 < b.1) :
    node.childFor query = Lib.childFor node.leftmostChild node.entries query := by
  obtain ⟨first, entries⟩ := node
  have hsplit := takeWhile_append_dropWhile (p := upTo query) (l := entries)
  -- the search stops where the separators pass the query
  have hpoint : Lib.partitionPoint
      (fun i => (entries[i]?).any fun e => decide (e.1 ≤ query)) entries.length 0 entries.length
      = (entries.takeWhile (upTo query)).length := by
    refine Lib.partitionPoint_eq ?_ _ 0 _ (Nat.zero_le _) ?_ (Nat.le_refl _) ?_
    · intro i hi
      have hget : entries[i]? = some (entries.takeWhile (upTo query))[i] := by
        conv_lhs => rw [← hsplit]
        rw [getElem?_append_left hi, getElem?_eq_getElem hi]
      rw [hget]
      show upTo query _ = true
      exact mem_takeWhile_imp (getElem_mem hi)
    · conv_rhs => rw [← hsplit]
      rw [length_append]
      omega
    · intro i hge hlt
      have hget : entries[i]? = (entries.dropWhile (upTo query))[i
          - (entries.takeWhile (upTo query)).length]? := by
        conv_lhs => rw [← hsplit]
        rw [getElem?_append_right hge]
      rw [hget]
      cases hd : entries.dropWhile (upTo query) with
      | nil => rfl
      | cons e tail =>
        have hhead : query < e.1 := by
          have := head?_dropWhile_not (upTo query) entries
          rw [hd] at this
          simpa [upTo] using this
        rw [← hsplit, hd] at hs
        have htail := (pairwise_cons.mp (pairwise_append.mp hs).2.1).1
        cases hj : (e :: tail)[i - (entries.takeWhile (upTo query)).length]? with
        | none => rfl
        | some x =>
          have hx : query < x.1 := by
            rcases mem_cons.mp (mem_of_getElem? hj) with rfl | hx
            · exact hhead
            · exact lt_trans hhead (htail x hx)
          exact decide_eq_false (not_le_of_gt hx)
  unfold Internal.childFor Lib.childFor
  dsimp only
  rw [hpoint]
  rcases eq_nil_or_concat (entries.takeWhile (upTo query)) with hnil | ⟨init, e, hcat⟩
  · rw [hnil]
    rfl
  · have hlast : entries[(init ++ [e]).length - 1]? = some e := by
      rw [← hsplit, hcat, length_append]
      simp
    rw [hcat, concat_eq_append, hlast, if_neg (by simp)]
    simp

/-- Below the fresh leaves, a leaf is seen through its page and the dirty leaf
    that may shadow it. -/
theorem Session.page_of_look_leaf {records : Records} (hdirty : s.DirtyPaged)
    (hf : s.freshLeaves.lookup id = none) (h : s.look id = some (.inl records)) :
    ∃ page, s.pager.page id = some (.leaf page)
      ∧ ((s.dirtyLeaves.lookup id).getD page).records = records := by
  cases hd : s.dirtyLeaves.lookup id with
  | some leaf =>
    obtain ⟨page, hpage⟩ := hdirty id (AList.lookup_isSome.mp (by rw [hd]; rfl))
    rw [Session.look_dirty hf hd] at h
    injection h with h
    injection h with h
    exact ⟨page, hpage, h⟩
  | none =>
    rw [Session.look_page hf hd] at h
    cases hp : s.pager.page id with
    | none => rw [hp] at h; cases h
    | some page =>
      rw [hp] at h
      cases page with
      | leaf l =>
        injection h with h
        injection h with h
        exact ⟨l, rfl, h⟩
      | _ => cases h

section Descent

variable {pick : Internal → PageId} {G : ∀ {h : Nat}, PageTree h → Prop}
  {P : ∀ {h : Nat}, Frame PageId Bytes Stored h → Prop}

/-- **A descent ends at the leaf its choices lead to.**  `G` is what makes the
    choice sound at a node, `P` what it says about the frame it leaves behind. -/
theorem descendFrom_returns
    (hpick : ∀ {h : Nat} (id : PageId) (first : PageTree h) (rest : List (Bytes × PageTree h)),
      G (Node.branch id first rest : PageTree (h + 1)) → ∃ f child,
        (Node.branch id first rest : PageTree (h + 1)) = Frame.fill f child ∧ f.id = id
          ∧ child.id = pick ⟨first.id, Node.links rest⟩
          ∧ G child ∧ P f) :
    ∀ {h : Nat} (n : PageTree h) (turns : Nat) (path : List PageId) (s : Session),
      Rep s.Shows n → G n → (path ++ n.ids).Nodup → 0 ∉ n.ids → s.DirtyPaged → h < turns →
      Returns Session.Clear (descendFrom pick turns path n.id) s fun r s' => s.Quiet s' ∧
        ∃ (c : Ctx PageId Bytes Stored 0 h) (id : PageId) (records : List (Bytes × Stored)),
          n = c.plug (.leaf id records) ∧ c.Forall P
            ∧ r.1 = path ++ (c.pathIds.reverse ++ [id]) ∧ r.2.records = leafRecords records := by
  intro h
  induction h with
  | zero =>
    intro n turns path s hrep _ hnodup hzero hdirty hturns
    obtain ⟨id, records, rfl⟩ := n.exists_leaf
    have hlook : s.look id = some (.inl (leafRecords records)) :=
      hrep (id, .leaf records) (mem_singleton_self _)
    obtain ⟨turns, rfl⟩ := Nat.exists_eq_succ_of_ne_zero (Nat.ne_of_gt (Nat.zero_lt_of_lt hturns))
    have hgo : ¬ (id = 0 ∨ id ∈ path) := by
      rintro (rfl | hmem)
      · exact hzero (mem_singleton_self _)
      · exact disjoint_of_nodup_append hnodup hmem (mem_singleton_self _)
    show Returns Session.Clear (descendFrom pick (turns + 1) path id) s _
    rw [descendFrom, if_neg hgo]
    refine Returns.get ?_
    cases hf : s.freshLeaves.lookup id with
    | some leaf =>
      refine Returns.pure ⟨Session.Quiet.refl s, .top, id, records, rfl, trivial, rfl, ?_⟩
      rw [Session.look_fresh hf] at hlook
      injection hlook with hlook
      injection hlook
    | none =>
      obtain ⟨page, hpage, hrecords⟩ := Session.page_of_look_leaf hdirty hf hlook
      refine (readNodeGuard_leaf hpage).bind ?_
      rintro _ t ⟨rfl, hq⟩
      exact Returns.pure ⟨hq, .top, id, records, rfl, trivial, rfl, hrecords⟩
  | succ h ih =>
    intro n turns path s hrep hG hnodup hzero hdirty hturns
    obtain ⟨id, first, rest, rfl⟩ := n.exists_branch
    have hlook : s.look id = some (.inr ⟨first.id, Node.links rest⟩) :=
      hrep (id, .branch first.id (Node.links rest)) mem_cons_self
    obtain ⟨hpage, hf, -⟩ := Session.page_of_look_internal hlook
    obtain ⟨turns, rfl⟩ := Nat.exists_eq_succ_of_ne_zero (Nat.ne_of_gt (Nat.zero_lt_of_lt hturns))
    have hmem : id ∈ (Node.branch id first rest).ids := Node.id_mem_ids _
    have hgo : ¬ (id = 0 ∨ id ∈ path) := by
      rintro (rfl | hin)
      · exact hzero hmem
      · exact disjoint_of_nodup_append hnodup hin hmem
    show Returns Session.Clear (descendFrom pick (turns + 1) path id) s _
    rw [descendFrom, if_neg hgo]
    refine Returns.get ?_
    rw [hf]
    refine (readNodeGuard_internal hpage).bind ?_
    rintro _ t ⟨rfl, hq⟩
    obtain ⟨f, child, hfill, hfid, hchild, hGchild, hPf⟩ := hpick id first rest hG
    have hids : (Node.branch id first rest).ids.Perm
        (id :: (child.ids ++ f.siblings.flatMap Node.ids)) := by
      have := (Ctx.cons f Ctx.top).plug_ids child
      rw [show (Ctx.cons f Ctx.top).plug child = Node.branch id first rest from hfill.symm] at this
      refine this.trans ?_
      show (child.ids ++ f.id :: (f.siblings.flatMap Node.ids ++ [])).Perm _
      rw [hfid, append_nil]
      exact perm_middle
    have hsub : ∀ x ∈ child.ids, x ∈ (Node.branch id first rest).ids := fun x hx =>
      hids.mem_iff.mpr (mem_cons_of_mem _ (mem_append_left _ hx))
    show Returns _ (descendFrom pick turns (path ++ [id]) (pick ⟨first.id, Node.links rest⟩)) t _
    rw [← hchild]
    refine (ih child turns (path ++ [id]) t ?_ hGchild ?_ (fun h0 => hzero (hsub 0 h0)) ?_
      (Nat.lt_of_succ_lt_succ hturns)).weaken ?_
    · intro e he
      refine hq.shows ?_
      refine hrep e ?_
      rw [hfill]
      exact (f.fill_cells child).mem_iff.mpr (mem_cons_of_mem _ (mem_append_left _ he))
    · have := (hids.append_left path).nodup_iff.mp hnodup
      rw [← cons_append, ← append_assoc] at this
      have := this.of_append_left
      rwa [append_cons] at this
    · obtain ⟨faults, rfl⟩ := hq
      exact hdirty
    · rintro r u ⟨hq', c, lid, records, rfl, hc, hpath', hrecords⟩
      refine ⟨hq.trans hq', c.snoc f, lid, records, ?_, hc.snoc hPf, ?_, hrecords⟩
      · rw [Ctx.plug_snoc]
        exact hfill
      · rw [hpath', Ctx.pathIds_snoc, reverse_append, hfid]
        simp

end Descent

end Pagedb
