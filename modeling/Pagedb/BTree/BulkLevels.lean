/-
  Pagedb.BTree.BulkLevels — the levels of a bulk load.

  The children a level has buffered are the subtrees of one level of a tower
  (`Lib.Tower`).  A level that is full becomes a branch, which is one more child
  for the level above; the read-out stays what it was.

  Main results:
    * `pushChild_returns` — a child taken in at any level extends the read-out at
      its end, and every page written fits;
    * `seen_lt`           — every level has seen fewer children than the one below
      it, which is why the loader's loops end.
-/
import Pagedb.BTree.Bulk
import Pagedb.BTree.Total
import Pagedb.Lib.TreeTower

namespace Pagedb

open Lib List

/-! ## §1. Loader programs -/

/-- No await fails from here on. -/
def Loading.Clear (st : Loading) : Prop := st.tree.Clear

section Programs

variable {α β : Type} {st : Loading}

theorem stepTree_returns {x : TreeM α} {Q : α → Session → Prop}
    (h : Returns Session.Clear x st.tree Q) :
    Returns Loading.Clear (stepTree x) st fun a st' => st'.loader = st.loader ∧ Q a st'.tree where
  sound := by
    intro a st' hrun
    unfold stepTree at hrun
    cases hx : x st.tree with
    | ok b s =>
      rw [hx] at hrun
      cases hrun
      exact ⟨rfl, h.sound _ _ hx⟩
    | error e s =>
      rw [hx] at hrun
      cases hrun
  total := by
    intro hclear
    obtain ⟨a, s, hx, hs⟩ := h.total hclear
    refine ⟨a, { st with tree := s }, ?_, hs⟩
    unfold stepTree
    rw [hx]

theorem stepLoader_returns (f : BulkLoader → BulkLoader) :
    Returns Loading.Clear (stepLoader f) st fun _ st' => st' = { st with loader := f st.loader } :=
  Returns.modify (fun hclear => hclear) rfl

theorem flushIfDirtyBudget_returns (s : Session) :
    Returns Session.Clear flushIfDirtyBudget s fun _ s' => s.Quiet s' := await_returns s

end Programs

/-! ## §2. Printed pages -/

/-- The page at an id is the node of the cell, and it fits. -/
def Session.Printed (s : Session) (id : PageId) : Cell PageId Bytes Stored → Prop
  | .leaf records => ∃ leaf, s.pager.page id = some (.leaf leaf)
      ∧ leaf.records = leafRecords records ∧ leaf.fits s.pageSize = true
  | .branch first rest => s.pager.page id = some (.internal ⟨first, rest⟩)
      ∧ Internal.fits ⟨first, rest⟩ s.pageSize = true

theorem Session.Printed.kept {ws : List PageId} {s s' : Session} {id : PageId}
    {c : Cell PageId Bytes Stored} (h : s.Printed id c) (ht : s.Touches ws s') (hid : id ∉ ws) :
    s'.Printed id c := by
  cases c with
  | leaf records =>
    obtain ⟨leaf, hpage, hrecords, hfits⟩ := h
    exact ⟨leaf, (ht.page hid).trans hpage, hrecords, ht.pageSize.symm ▸ hfits⟩
  | branch first rest =>
    exact ⟨(ht.page hid).trans h.1, ht.pageSize.symm ▸ h.2⟩

/-! ## §3. Levels -/

variable {pageSize : Nat} {h : Nat}

/-- How many bytes a separator takes in a branch. -/
def entrySize (k : Bytes) : Nat :=
  k.length + SEPARATOR_RECORD_OVERHEAD + SLOT_DIRECTORY_ENTRY_SIZE

/-- The level has buffered the subtrees `kids`, and they fit one branch. -/
structure Fills (pageSize : Nat) (kids : List (Bytes × PageTree h)) (a : LevelAccum) : Prop where
  children : a.children = kids.map fun e => (e.2.id, e.1)
  some_kid : kids ≠ []
  used : a.used = HEADER_LEN + (kids.tail.map fun e => entrySize e.1).sum
  room : a.used ≤ bodyCapacity pageSize

/-- How many children the lowest of some levels has seen. -/
def seen : List LevelAccum → Nat
  | [] => 0
  | a :: _ => a.total

/-- The levels hold the tower.  Every branch a level gave away stood over two
    children at least. -/
def Stacked (pageSize : Nat) : {h : Nat} → Tower PageId Bytes Stored h → List LevelAccum → Prop
  | _, .top, as => as = []
  | _, .level kids up, as => ∃ a rest, as = a :: rest ∧ Fills pageSize kids a
      ∧ kids.length + 2 * seen rest ≤ a.total ∧ Stacked pageSize up rest

variable {a : LevelAccum} {k : Bytes}

/-- **A level has seen fewer children than the one below it**, even with the branch
    over the rest of them. -/
theorem seen_lt {kids : List (Bytes × PageTree h)} {rest : List LevelAccum}
    (hfills : Fills pageSize kids a) (hseen : kids.length + 2 * seen rest ≤ a.total)
    (hmany : a.total ≠ 1) : seen rest + 1 < a.total := by
  have hkids : 0 < kids.length := length_pos_iff.mpr hfills.some_kid
  omega

theorem separatorEntrySize_ok (hk : separatorFits k.length pageSize = true) :
    separatorEntrySize k.length = .ok (entrySize k)
      ∧ HEADER_LEN + entrySize k ≤ bodyCapacity pageSize := by
  obtain ⟨hlen, hsize⟩ := Bool.and_eq_true_iff.mp hk
  refine ⟨?_, of_decide_eq_true hsize⟩
  unfold separatorEntrySize
  rw [if_neg (Nat.not_lt.mpr (of_decide_eq_true hlen))]
  rfl

theorem fills_new {n : PageTree h} (hk : separatorFits k.length pageSize = true) (total : Nat) :
    Fills pageSize [(k, n)] ⟨[(n.id, k)], HEADER_LEN, total⟩ where
  children := rfl
  some_kid := cons_ne_nil _ _
  used := rfl
  room := le_trans (Nat.le_add_right _ _) (separatorEntrySize_ok hk).2

/-- A child offered to a level is taken, or the level is full with two children at
    least. -/
theorem Fills.tryPush {kids : List (Bytes × PageTree h)} {n : PageTree h}
    (hfills : Fills pageSize kids a) (hk : separatorFits k.length pageSize = true) :
    (∃ a', a.tryPush (n.id, k) (bodyCapacity pageSize) = .ok (some a')
        ∧ Fills pageSize (kids ++ [(k, n)]) a' ∧ a'.total = a.total + 1)
      ∨ a.tryPush (n.id, k) (bodyCapacity pageSize) = .ok none ∧ 2 ≤ kids.length := by
  obtain ⟨hsize, hone⟩ := separatorEntrySize_ok hk
  obtain ⟨e, rest, rfl⟩ := exists_cons_of_ne_nil hfills.some_kid
  have hchildren := hfills.children
  have hne : a.children.isEmpty = false := by rw [hchildren]; rfl
  unfold LevelAccum.tryPush
  rw [hne, if_neg Bool.false_ne_true, ok_bind hsize]
  dsimp only
  by_cases hfull : a.used + entrySize k > bodyCapacity pageSize
  · -- a level with one child still has room for one separator
    have hlen : a.children.length = rest.length + 1 := by rw [hchildren]; simp
    have hmany : ¬ a.children.length = 1 := by
      intro h1
      have hnil : rest = [] := length_eq_zero_iff.mp (by omega)
      rw [hfills.used, hnil] at hfull
      exact absurd hone (Nat.not_le.mpr hfull)
    rw [if_pos hfull, if_neg hmany]
    refine Or.inr ⟨rfl, ?_⟩
    show 2 ≤ rest.length + 1
    omega
  · rw [if_neg hfull]
    refine Or.inl ⟨_, rfl, ⟨?_, cons_ne_nil _ _, ?_, Nat.le_of_not_lt hfull⟩, rfl⟩
    · show a.children ++ [(n.id, k)] = _
      rw [hchildren, map_append]
      rfl
    · show a.used + entrySize k = HEADER_LEN + ((rest ++ [(k, n)]).map fun e => entrySize e.1).sum
      rw [hfills.used, map_append, sum_append]
      show HEADER_LEN + (rest.map fun e => entrySize e.1).sum + entrySize k
        = HEADER_LEN + ((rest.map fun e => entrySize e.1).sum + (entrySize k + 0))
      omega

theorem sum_entrySize (rest : List (Bytes × PageTree h)) :
    (Node.links rest).length * 2 + ((Node.links rest).map fun e => 2 + e.1.length + 8).sum
      = (rest.map fun e => entrySize e.1).sum := by
  induction rest with
  | nil => rfl
  | cons e rest ih =>
    show (Node.links rest).length.succ * 2
      + ((2 + e.1.length + 8) + ((Node.links rest).map fun e => 2 + e.1.length + 8).sum)
      = entrySize e.1 + (rest.map fun e => entrySize e.1).sum
    unfold entrySize SEPARATOR_RECORD_OVERHEAD SLOT_DIRECTORY_ENTRY_SIZE at *
    omega

/-- What is taken from a level is the branch over its children. -/
theorem Fills.takeNode {first : PageTree h} {rest : List (Bytes × PageTree h)}
    (hfills : Fills pageSize ((k, first) :: rest) a) :
    a.takeNode = (some (⟨first.id, Node.links rest⟩, k), { a with children := [], used := HEADER_LEN })
      ∧ Internal.fits ⟨first.id, Node.links rest⟩ pageSize = true := by
  constructor
  · unfold LevelAccum.takeNode
    rw [hfills.children]
    show (some ((⟨first.id, (rest.map fun e => (e.2.id, e.1)).map fun c => (c.2, c.1)⟩ : Internal), k),
      _) = _
    rw [map_map]
    rfl
  · have hroom := hfills.room
    rw [hfills.used, tail_cons, ← sum_entrySize rest, ← Nat.add_assoc] at hroom
    exact decide_eq_true hroom

/-! ## §4. Children on their way up -/

section Push

variable {source : List PageId}

/-- **A level becomes a branch**, on a page nobody owned.  The program goes on with
    the branch as a subtree one level higher. -/
theorem writeBranch_returns {β : Type} {k : Bytes} {first : PageTree h}
    {others : List (Bytes × PageTree h)} {up : Tower PageId Bytes Stored (h + 1)}
    {owned : List PageId} {st : Loading} {f : PageId → LoadM β} {Q : β → Loading → Prop}
    (hfits : Internal.fits ⟨first.id, Node.links others⟩ st.tree.pageSize = true)
    (hprinted : ∀ e ∈ (Tower.level ((k, first) :: others) up).cells, st.tree.Printed e.1 e.2)
    (hl : Ledger source st.tree ((Tower.level ((k, first) :: others) up).ids ++ owned))
    (hf : ∀ id st', st'.loader = st.loader →
      (∀ e ∈ up.cells ++ (Node.branch id first others).cells, st'.tree.Printed e.1 e.2) →
      Ledger source st'.tree (up.ids ++ ((Node.branch id first others).ids ++ owned)) →
      st.tree.Touches [id] st'.tree →
      (∀ p ∈ (Tower.level ((k, first) :: others) up).ids ++ owned, p ∉ [id]) →
      Returns Loading.Clear (f id) st' Q) :
    Returns Loading.Clear (do
      let pageId ← stepTree allocatePage
      stepTree (writeInternal pageId ⟨first.id, Node.links others⟩)
      stepTree flushIfDirtyBudget
      f pageId) st Q := by
  refine (stepTree_returns ((allocatePage_ends hl).returns fun _ _ hrun => hl.allocate hrun)).bind ?_
  rintro id st₁ ⟨hloader₁, hl₁, ht₁⟩
  refine (stepTree_returns ((writeInternal_ends (ht₁.pageSize.symm ▸ hfits)).returns
    fun _ _ hrun => writeInternal_eq_ok hrun)).bind ?_
  rintro _ st₂ ⟨hloader₂, hwrite⟩
  refine (stepTree_returns (flushIfDirtyBudget_returns st₂.tree)).bind ?_
  rintro _ st₃ ⟨hloader₃, hq⟩
  have ht : st.tree.Touches [id] st₃.tree := ((ht₁.trans (writePage_touches hwrite)).trans
    (Session.Touches.of_quiet hq)).mono (by simp)
  have hl₃ := (writePage_ledger hl₁ hwrite).of_quiet hq
  have hfresh : ∀ p ∈ (Tower.level ((k, first) :: others) up).ids ++ owned, p ∉ [id] := by
    intro p hp hmem
    rw [mem_singleton.mp hmem] at hp
    exact (nodup_cons.mp hl₃.nodup).1 hp
  have hpage : st₃.tree.pager.page id = some (.internal ⟨first.id, Node.links others⟩) := by
    obtain ⟨pager, htree, hpage, -⟩ := writePage_eq_ok hwrite
    obtain ⟨faults, hquiet⟩ := hq
    rw [hquiet, htree]
    exact hpage
  -- the write touched no other page of the tower
  have hkept : ∀ e ∈ (Tower.level ((k, first) :: others) up).cells, st₃.tree.Printed e.1 e.2 := by
    intro e he
    have hid := mem_map_of_mem (f := Prod.fst) he
    rw [Tower.cells_map_fst] at hid
    exact (hprinted e he).kept ht (hfresh _ (mem_append_left _ hid))
  refine hf id st₃ (hloader₃.trans (hloader₂.trans hloader₁)) ?_ (hl₃.perm ?_) ht hfresh
  · intro e he
    rcases mem_append.mp he with he | he
    · exact hkept e (mem_append_left _ he)
    · rcases mem_cons.mp he with rfl | he
      · exact ⟨hpage, ht.pageSize.symm ▸ hfits⟩
      · exact hkept e (mem_append_right _ he)
  · show List.Perm _ (id :: ((up.ids ++ _) ++ owned))
    rw [append_assoc]
    exact perm_middle

/-- The pages of a level are pages of the branch over it. -/
theorem mem_below_branch {k : Bytes} {id : PageId} {first : PageTree h}
    {others : List (Bytes × PageTree h)} {up : Tower PageId Bytes Stored (h + 1)}
    {owned : List PageId} {p : PageId}
    (hp : p ∈ (Tower.level ((k, first) :: others) up).ids ++ owned) :
    p ∈ up.ids ++ ((Node.branch id first others).ids ++ owned) := by
  rcases mem_append.mp hp with hp | hp
  · rcases mem_append.mp hp with hp | hp
    · exact mem_append_left _ hp
    · exact mem_append_right _ (mem_append_left _ (mem_cons_of_mem _ hp))
  · exact mem_append_right _ (mem_append_right _ hp)

/-- What a child pushed into a tower leaves: the tower with the child at its end,
    on pages of its own, and one child more at the lowest level. -/
structure Pushed (source owned : List PageId) (st st' : Loading) (below as : List LevelAccum)
    (T : Tower PageId Bytes Stored h) (k : Bytes) (n : PageTree h)
    (T' : Tower PageId Bytes Stored h) (as' : List LevelAccum) : Prop where
  loader : st'.loader = { st.loader with levels := below ++ as' }
  stacked : Stacked st.tree.pageSize T' as'
  seen : seen as' = Pagedb.seen as + 1
  items : T'.items = T.items ++ .sep k :: n.items
  leaves : T'.leafIds = T.leafIds ++ n.leafIds
  printed : ∀ e ∈ T'.cells, st'.tree.Printed e.1 e.2
  ledger : Ledger source st'.tree (T'.ids ++ owned)
  kept : ∃ ws, st.tree.Touches ws st'.tree ∧ ∀ p ∈ T.ids ++ (n.ids ++ owned), p ∉ ws

theorem grow_levels {below : List LevelAccum} {as : List LevelAccum} {l : BulkLoader}
    (hl : l.levels = below ++ as) :
    BulkLoader.grow below.length l
      = { l with levels := below ++ (if as = [] then [LevelAccum.new] else as) } := by
  unfold BulkLoader.grow
  cases as with
  | nil =>
    rw [append_nil] at hl
    rw [hl, if_pos rfl, Nat.add_sub_cancel_left]
    rfl
  | cons a as =>
    have hlen : below.length + 1 - (below ++ a :: as).length = 0 := by
      rw [length_append, length_cons]
      omega
    rw [hl, if_neg (cons_ne_nil _ _), hlen, replicate_zero, append_nil]

theorem set_level (below : List LevelAccum) (a b : LevelAccum) (as : List LevelAccum) :
    (below ++ a :: as).set below.length b = below ++ b :: as := by
  rw [set_append_right _ _ (Nat.le_refl _), Nat.sub_self]
  rfl

theorem get_level (below : List LevelAccum) (a : LevelAccum) (as : List LevelAccum) :
    (below ++ a :: as)[below.length]? = some a := by
  rw [getElem?_append_right (Nat.le_refl _), Nat.sub_self]
  rfl

/-- **A child taken in at any level extends the read-out at its end.** -/
theorem pushChildFrom_returns (T : Tower PageId Bytes Stored h) :
    ∀ {n : PageTree h} {k : Bytes} {below as : List LevelAccum} {owned : List PageId} {turns : Nat}
      {st : Loading}, st.loader.levels = below ++ as →
      separatorFits k.length st.tree.pageSize = true →
      (∀ j, Item.sep j ∈ T.items → separatorFits j.length st.tree.pageSize = true) →
      Stacked st.tree.pageSize T as → (∀ e ∈ T.cells ++ n.cells, st.tree.Printed e.1 e.2) →
      Ledger source st.tree (T.ids ++ (n.ids ++ owned)) → as.length < turns →
      Returns Loading.Clear (pushChildFrom turns below.length (n.id, k)) st fun _ st' =>
        ∃ T' as', Pushed source owned st st' below as T k n T' as' := by
  induction T with
  | top =>
    intro n k below as owned turns st hlevels hk _ hstacked hprinted hl hturns
    obtain ⟨turns, rfl⟩ := Nat.exists_eq_succ_of_ne_zero (Nat.ne_of_gt (Nat.zero_lt_of_lt hturns))
    have hnil : as = [] := hstacked
    subst hnil
    unfold pushChildFrom
    refine (stepLoader_returns _).bind ?_
    rintro _ _ rfl
    refine Returns.get ?_
    rw [grow_levels hlevels, if_pos rfl]
    dsimp only
    rw [get_level]
    -- a new level takes any child
    refine (stepLoader_returns _).weaken ?_
    rintro _ _ rfl
    refine ⟨.level [(k, n)] .top, [⟨[(n.id, k)], HEADER_LEN, 1⟩], ?_, ?_, rfl, ?_, ?_, ?_, ?_, ?_⟩
    · show BulkLoader.setLevel _ _ _ = _
      unfold BulkLoader.setLevel
      dsimp only
      rw [set_level]
      rfl
    · exact ⟨_, [], rfl, fills_new hk 1, Nat.le_refl _, rfl⟩
    · show [] ++ ((.sep k :: n.items) ++ []) = [] ++ .sep k :: n.items
      rw [append_nil]
    · show [] ++ (n.leafIds ++ []) = [] ++ n.leafIds
      rw [append_nil]
    · intro e he
      have he : e ∈ [] ++ (n.cells ++ []) := he
      rw [append_nil] at he
      exact hprinted e he
    · show Ledger source st.tree (([] ++ (n.ids ++ [])) ++ owned)
      rw [append_nil]
      exact hl
    · exact ⟨[], Session.Touches.refl _, fun _ _ => not_mem_nil⟩
  | level kids up ih =>
    intro n k below as owned turns st hlevels hk hseps hstacked hprinted hl hturns
    obtain ⟨a, rest, rfl, hfills, hseen, hup⟩ := hstacked
    obtain ⟨turns, rfl⟩ := Nat.exists_eq_succ_of_ne_zero (Nat.ne_of_gt (Nat.zero_lt_of_lt hturns))
    unfold pushChildFrom
    refine (stepLoader_returns _).bind ?_
    rintro _ _ rfl
    refine Returns.get ?_
    rw [grow_levels hlevels, if_neg (cons_ne_nil _ _)]
    dsimp only
    rw [get_level]
    dsimp only
    rcases hfills.tryPush (n := n) hk with ⟨a', hpush, hfills', htotal⟩ | ⟨hpush, htwo⟩
    · -- the child fits beside the others
      rw [hpush]
      refine (stepLoader_returns _).weaken ?_
      rintro _ _ rfl
      refine ⟨.level (kids ++ [(k, n)]) up, a' :: rest, ?_, ?_, htotal, ?_, ?_, ?_, ?_, ?_⟩
      · show BulkLoader.setLevel _ _ _ = _
        unfold BulkLoader.setLevel
        dsimp only
        rw [set_level]
      · refine ⟨a', rest, rfl, hfills', ?_, hup⟩
        rw [length_append, htotal]
        simp only [length_singleton]
        omega
      · show up.items ++ (kids ++ [(k, n)]).flatMap _ = up.items ++ kids.flatMap _ ++ _
        rw [flatMap_append, append_assoc, flatMap_singleton]
      · show up.leafIds ++ (kids ++ [(k, n)]).flatMap _ = up.leafIds ++ kids.flatMap _ ++ _
        rw [flatMap_append, append_assoc, flatMap_singleton]
      · intro e he
        have he : e ∈ up.cells ++ (kids ++ [(k, n)]).flatMap fun e => e.2.cells := he
        rw [flatMap_append, ← append_assoc, flatMap_singleton] at he
        exact hprinted e he
      · show Ledger source st.tree ((up.ids ++ (kids ++ [(k, n)]).flatMap fun e => e.2.ids) ++ owned)
        rw [flatMap_append, ← append_assoc, flatMap_singleton, append_assoc]
        exact hl
      · exact ⟨[], Session.Touches.refl _, fun _ _ => not_mem_nil⟩
    · -- the level is full: its branch goes up, and the child starts it anew
      rw [hpush]
      obtain ⟨⟨k₀, first⟩, others, rfl⟩ := exists_cons_of_ne_nil hfills.some_kid
      obtain ⟨htake, hfits⟩ := hfills.takeNode
      rw [htake]
      dsimp only
      refine (stepLoader_returns _).bind ?_
      rintro _ _ rfl
      refine writeBranch_returns hfits (fun e he => hprinted e (mem_append_left _ he)) hl ?_
      intro id st₁ hloader₁ hprinted₁ hl₁ ht₁ hfresh
      have hlevels₁ : st₁.loader.levels
          = (below ++ [⟨[(n.id, k)], HEADER_LEN, a.total + 1⟩]) ++ rest := by
        rw [hloader₁]
        show (BulkLoader.setLevel _ _ _).levels = _
        unfold BulkLoader.setLevel
        dsimp only
        rw [set_level, append_assoc]
        rfl
      have hsize₁ : st₁.tree.pageSize = st.tree.pageSize := ht₁.pageSize
      have hlen : below.length + 1
          = (below ++ [(⟨[(n.id, k)], HEADER_LEN, a.total + 1⟩ : LevelAccum)]).length := by
        rw [length_append]
        rfl
      have hk₀ : Item.sep k₀ ∈ (Tower.level ((k₀, first) :: others) up).items :=
        mem_append_right _ mem_cons_self
      rw [hlen]
      refine (@ih (Node.branch id first others) k₀ _ rest (n.ids ++ owned) turns st₁ hlevels₁
        (hsize₁.symm ▸ hseps k₀ hk₀) (fun j hj => hsize₁.symm ▸ hseps j
          (mem_append_left _ hj)) (hsize₁.symm ▸ hup) hprinted₁ hl₁ ?_).weaken ?_
      · rw [length_cons] at hturns
        omega
      · rintro _ st₂ ⟨up', rest', hp⟩
        obtain ⟨ws, ht₂, hws⟩ := hp.kept
        refine ⟨.level [(k, n)] up', ⟨[(n.id, k)], HEADER_LEN, a.total + 1⟩ :: rest', ?_, ?_, rfl,
          ?_, ?_, ?_, ?_, [id] ++ ws, ht₁.trans ht₂, ?_⟩
        · rw [hp.loader, hloader₁, append_assoc]
          rfl
        · refine ⟨_, rest', rfl, fills_new hk _, ?_, hsize₁ ▸ hp.stacked⟩
          rw [hp.seen]
          show 1 + 2 * (seen rest + 1) ≤ a.total + 1
          omega
        · show up'.items ++ ((.sep k :: n.items) ++ []) = _
          rw [hp.items, append_nil]
          rfl
        · show up'.leafIds ++ (n.leafIds ++ []) = _
          rw [hp.leaves, append_nil, leafIds_branch id k₀]
          rfl
        · intro e he
          rcases mem_append.mp he with he | he
          · exact hp.printed e he
          · have he : e ∈ n.cells := by simpa using he
            have hid : e.1 ∈ n.ids := by
              rw [← Node.cells_map_fst]
              exact mem_map_of_mem he
            refine ((hprinted e (mem_append_right _ he)).kept ht₁ (hfresh e.1 ?_)).kept ht₂
              (hws e.1 ?_)
            · exact mem_append_right _ (mem_append_left _ hid)
            · exact mem_append_right _ (mem_append_right _ (mem_append_left _ hid))
        · show Ledger source st₂.tree ((up'.ids ++ (n.ids ++ [])) ++ owned)
          rw [append_nil, append_assoc]
          exact hp.ledger
        · intro p hp' hmem
          rcases mem_append.mp hmem with hmem | hmem
          · exact hfresh p hp' hmem
          · exact hws p (mem_below_branch hp') hmem

theorem pushChild_returns (T : Tower PageId Bytes Stored h) {n : PageTree h} {k : Bytes}
    {below as : List LevelAccum} {owned : List PageId} {st : Loading}
    (hlevels : st.loader.levels = below ++ as)
    (hk : separatorFits k.length st.tree.pageSize = true)
    (hseps : ∀ j, Item.sep j ∈ T.items → separatorFits j.length st.tree.pageSize = true)
    (hstacked : Stacked st.tree.pageSize T as)
    (hprinted : ∀ e ∈ T.cells ++ n.cells, st.tree.Printed e.1 e.2)
    (hl : Ledger source st.tree (T.ids ++ (n.ids ++ owned))) :
    Returns Loading.Clear (pushChild below.length (n.id, k)) st fun _ st' =>
      ∃ T' as', Pushed source owned st st' below as T k n T' as' := by
  unfold pushChild
  refine Returns.get (pushChildFrom_returns T hlevels hk hseps hstacked hprinted hl ?_)
  rw [hlevels, length_append]
  omega

end Push

end Pagedb
