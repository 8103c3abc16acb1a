/-
  Pagedb.BTree.BranchSplit — a split on its way up
  (`btree/tree/navigate.rs`, `btree/internal.rs`).

  A leaf that splits gives its parent one more separator, and a branch that then
  is too large is cut at the middle entry, whatever the sizes are.  `Session.PutFits`
  says when every node written on the way up fits; where it does not hold, a `put`
  fails with `PayloadTooLarge` when its leaf is gone already.

    * `put_splits_fit`             — a put fails so exactly where the nodes do not fit;
    * `put_fails_behind_its_split` — a run with keys of 1 and of 1340 bytes.
-/
import Pagedb.BTree.Contracts
import Pagedb.BTree.LeafSplit

namespace Pagedb

open Lib List

/-! ## §1. Branches that fit -/

/-- The branches above a split, nearest first, take the separator it sends up: the
    nearest fits with it, or both its halves fit and the branches above take the key
    that it promotes; above the last of them is a new root.  The links do not matter
    for the size. -/
def SplitFits (pageSize : Nat) : List Internal → Bytes → Prop
  | [], sep => (Internal.mk 0 [(sep, 0)]).fits pageSize = true
  | node :: up, sep => (node.upsert sep 0).fits pageSize = true
    ∨ ∃ l r promoted, (node.upsert sep 0).split = some (l, r, promoted)
      ∧ l.fits pageSize = true ∧ r.fits pageSize = true ∧ SplitFits pageSize up promoted

/-- The separators of a branch. -/
def Internal.keys (node : Internal) : List Bytes := node.entries.map Prod.fst

section Keys

variable {node node' l r : Internal} {k sep promoted : Bytes} {pageSize : Nat} {up : List Internal}

theorem Internal.length_of_keys (h : node.keys = node'.keys) :
    node.entries.length = node'.entries.length := by
  have hlen := congrArg List.length h
  rwa [Internal.keys, Internal.keys, length_map, length_map] at hlen

theorem Internal.fits_congr (h : node.keys = node'.keys) (pageSize : Nat) :
    node.fits pageSize = node'.fits pageSize := by
  have hcost := congrArg (List.map fun k : Bytes => 2 + k.length + 8) h
  rw [Internal.keys, Internal.keys, map_map, map_map] at hcost
  have hcost : node.entries.map (fun e => 2 + e.1.length + 8)
      = node'.entries.map fun e => 2 + e.1.length + 8 := hcost
  unfold Internal.fits
  rw [Internal.length_of_keys h, hcost]

theorem upsertSorted_keys {entries entries' : List (Bytes × PageId)} (c c' : PageId)
    (h : entries.map Prod.fst = entries'.map Prod.fst) :
    (upsertSorted k c entries).map Prod.fst = (upsertSorted k c' entries').map Prod.fst := by
  have htake : (entries.takeWhile fun e => decide (e.1 < k)).map Prod.fst
      = (entries'.takeWhile fun e => decide (e.1 < k)).map Prod.fst := by
    have := congrArg (List.takeWhile fun j => decide (j < k)) h
    rwa [takeWhile_map, takeWhile_map] at this
  have hdrop : (entries.dropWhile fun e => decide (e.1 < k)).map Prod.fst
      = (entries'.dropWhile fun e => decide (e.1 < k)).map Prod.fst := by
    have := congrArg (List.dropWhile fun j => decide (j < k)) h
    rwa [dropWhile_map, dropWhile_map] at this
  unfold upsertSorted binarySearch
  generalize (entries.dropWhile fun e => decide (e.1 < k)) = rest at hdrop
  generalize (entries'.dropWhile fun e => decide (e.1 < k)) = rest' at hdrop
  cases rest with
  | nil =>
    obtain rfl : rest' = [] := map_eq_nil_iff.mp hdrop.symm
    simp [htake]
  | cons e rest =>
    cases rest' with
    | nil => cases hdrop
    | cons e' rest' =>
      obtain ⟨hfst, hrest⟩ := List.cons.inj hdrop
      by_cases hk : e.1 = k
      · simp [htake, hrest, hk, hfst ▸ hk]
      · simp [htake, hrest, hfst, hfst ▸ hk]

/-- A separator goes between the same keys, whatever the links are. -/
theorem Internal.upsert_keys (node : Internal) (old new child : PageId) (sep : Bytes) :
    ((node.repoint old new).upsert sep child).keys = (node.upsert sep 0).keys :=
  upsertSorted_keys child 0 (node.repoint_keys old new)

theorem Internal.split_congr (h : node.keys = node'.keys)
    (hsplit : node.split = some (l, r, promoted)) :
    ∃ l' r', node'.split = some (l', r', promoted) ∧ l.keys = l'.keys ∧ r.keys = r'.keys := by
  have htake := congrArg (List.take (node.entries.length / 2)) h
  have hdrop := congrArg (List.drop (node.entries.length / 2)) h
  unfold Internal.keys at htake hdrop
  rw [← map_take, ← map_take] at htake
  rw [← map_drop, ← map_drop] at hdrop
  unfold Internal.split at hsplit ⊢
  dsimp only at hsplit ⊢
  rw [← Internal.length_of_keys h]
  cases hd : node.entries.drop (node.entries.length / 2) with
  | nil =>
    rw [hd] at hsplit
    cases hsplit
  | cons e rest =>
    rw [hd] at hsplit hdrop
    cases hsplit
    cases hd' : node'.entries.drop (node.entries.length / 2) with
    | nil =>
      rw [hd'] at hdrop
      cases hdrop
    | cons e' rest' =>
      rw [hd'] at hdrop
      obtain ⟨hfst, hrest⟩ := List.cons.inj hdrop
      dsimp only
      rw [← hfst]
      exact ⟨_, _, rfl, htake, hrest⟩

theorem Internal.upsert_split (node : Internal) (k : Bytes) (child : PageId) :
    ∃ l r promoted, (node.upsert k child).split = some (l, r, promoted) := by
  have hpos : 0 < (node.upsert k child).entries.length := by
    show 0 < (upsertSorted k child node.entries).length
    unfold upsertSorted
    rw [length_append, length_cons]
    omega
  unfold Internal.split
  dsimp only
  cases hdrop : (node.upsert k child).entries.drop ((node.upsert k child).entries.length / 2) with
  | nil =>
    rw [drop_eq_nil_iff] at hdrop
    omega
  | cons e rest => exact ⟨_, _, _, rfl⟩

/-- A branch that is too large is split, and its halves decide. -/
theorem splitFits_of_split (hkeys : node'.keys = (node.upsert sep 0).keys)
    (hover : ¬ node'.fits pageSize = true) (hsplit : node'.split = some (l, r, promoted)) :
    SplitFits pageSize (node :: up) sep
      ↔ l.fits pageSize = true ∧ r.fits pageSize = true ∧ SplitFits pageSize up promoted := by
  obtain ⟨l', r', hsplit', hl, hr⟩ := Internal.split_congr hkeys hsplit
  rw [Internal.fits_congr hkeys] at hover
  rw [Internal.fits_congr hl, Internal.fits_congr hr]
  constructor
  · rintro (hfits | ⟨a, b, m, hsome, hrest⟩)
    · exact absurd hfits hover
    · rw [hsplit'] at hsome
      cases hsome
      exact hrest
  · exact fun hrest => Or.inr ⟨l', r', promoted, hsplit', hrest⟩

end Keys

/-! ## §2. The way up -/

theorem stable_true : Stable fun _ => True :=
  ⟨fun _ _ => trivial, fun _ _ _ _ _ _ _ => trivial, fun _ _ _ _ => trivial⟩

/-- The program fails for the size of a node exactly where `P` does not hold. -/
abbrev TooLargeUnless (P : Prop) {α : Type} (x : TreeM α) (s : Session) : Prop :=
  Refuses Session.Clear .payloadTooLarge P x s

section Steps

variable {α β : Type} {P : Prop} {x : TreeM α} {f : α → TreeM β} {s : Session}

theorem notTooLarge (hx : Steps false x) : FailsOnly (fun e => e ≠ .payloadTooLarge) x s :=
  (stable_true.tidy hx).failsOnly trivial

theorem tooLarge_step (hx : Steps false x) (hends : Ends Session.Clear x s)
    (hf : ∀ a t, x s = .ok a t → TooLargeUnless P (f a) t) : TooLargeUnless P (x >>= f) s :=
  Refuses.step hends (notTooLarge hx) hf

/-- A branch that is written has to fit. -/
theorem tooLarge_write {id : PageId} {node : Internal} {f : Unit → TreeM β}
    (hP : P → node.fits s.pageSize = true) (hf : node.fits s.pageSize = true → ∀ t,
      writePage id (.internal node) s = .ok () t → TooLargeUnless P (f ()) t) :
    TooLargeUnless P (writeInternal id node >>= f) s := by
  by_cases hfits : node.fits s.pageSize = true
  · have hrun : writeInternal id node s = writePage id (.internal node) s := by
      unfold writeInternal
      rw [get_bind, if_pos hfits]
    refine Refuses.step (writeInternal_ends hfits) (fun e t heq hlarge => ?_) fun _ t hok =>
      hf hfits t (hrun ▸ hok)
    rw [hrun] at heq
    exact absurd ((@writePage_confined none none false id _).fails s e t heq)
      (hlarge ▸ Bool.noConfusion)
  · refine .of_error (t := s) (bind_of_error ?_) fun h => hfits (hP h)
    unfold writeInternal
    rw [get_bind, if_neg hfits]
    rfl

end Steps

/-- The pages hold these branches. -/
def Session.Spine (s : Session) : List PageId → List Internal → Prop :=
  Forall₂ fun p node => s.pager.page p = some (.internal node)

theorem Session.Spine.touch {s s' : Session} {up ws : List PageId} {nodes : List Internal}
    (h : s.Spine up nodes) (ht : s.Touches ws s') (hws : ∀ p ∈ up, p ∉ ws) : s'.Spine up nodes := by
  induction h with
  | nil => exact .nil
  | cons hpage _ ih =>
    exact .cons ((ht.page (hws _ mem_cons_self)).trans hpage)
      (ih fun p hp => hws p (mem_cons_of_mem _ hp))

/-- **A split fails for the size of a branch exactly where one does not fit.** -/
theorem propagateSplitUp_tooLarge {source : List PageId} (up : List PageId) :
    ∀ {nodes : List Internal} {childOld left right : PageId} {sep : Bytes} {s : Session}
      {owned : List PageId}, Ledger source s (up ++ owned) → s.Spine up nodes →
      TooLargeUnless (SplitFits s.pageSize nodes sep) (propagateSplitUp up childOld left sep right) s := by
  induction up with
  | nil =>
    intro nodes childOld left right sep s owned hl hspine
    cases hspine
    unfold propagateSplitUp
    refine tooLarge_step .allocate (allocatePage_ends hl) fun root t halloc => ?_
    rw [← (hl.allocate halloc).2.pageSize]
    exact tooLarge_write (fun h => h) fun hfits _ _ => .never (FailsOnly.pure ()) hfits
  | cons p up ih =>
    intro nodes childOld left right sep s owned hl hspine
    obtain ⟨stored, nodes, hpage, hup, rfl⟩ := forall₂_cons_left_iff.mp hspine
    unfold propagateSplitUp
    refine tooLarge_step (readInternal_steps p) (readInternal_returns hpage).ends fun node q hread => ?_
    obtain ⟨rfl, hq⟩ := (readInternal_returns hpage).sound _ _ hread
    refine tooLarge_step .allocate (allocatePage_ends (hl.of_quiet hq)) fun newPage t halloc => ?_
    obtain ⟨hlt, htt⟩ := (hl.of_quiet hq).allocate halloc
    have htt := (Session.Touches.of_quiet hq).trans htt
    rw [← htt.pageSize]
    refine Refuses.get ?_
    have hkeys := Internal.upsert_keys node childOld left right sep
    split_ifs with hroom
    · -- the branch takes the separator, and what follows changes links only
      have hfits : SplitFits t.pageSize (node :: nodes) sep :=
        Or.inl ((Internal.fits_congr hkeys _).symm.trans hroom)
      refine tooLarge_write (fun _ => hroom) fun _ _ _ => .never ?_ hfits
      refine (notTooLarge (freePage_steps p)).bind fun _ _ _ => FailsOnly.modify ?_
      exact (notTooLarge (copySpine_steps up p newPage)).bind fun _ _ _ => FailsOnly.pure ()
    · obtain ⟨l, r, promoted, hsplit⟩ := (node.repoint childOld left).upsert_split sep right
      rw [hsplit]
      dsimp only
      refine .congr ?_ (splitFits_of_split hkeys hroom hsplit)
      refine tooLarge_step .allocate (allocatePage_ends hlt) fun rightPage v halloc' => ?_
      obtain ⟨hlv, htv⟩ := hlt.allocate halloc'
      rw [← htv.pageSize]
      refine tooLarge_write (fun h => h.1) fun hfl w hwrite => ?_
      have htw := writePage_touches hwrite
      rw [← htw.pageSize] at hfl ⊢
      refine tooLarge_write (fun h => h.2.1) fun hfr x hwrite' => ?_
      have hlx := writePage_ledger (writePage_ledger hlv hwrite) hwrite'
      have htx := ((htt.trans htv).trans htw).trans (writePage_touches hwrite')
      rw [← (writePage_touches hwrite').pageSize] at hfl hfr ⊢
      have hperm : (p :: (up ++ (rightPage :: newPage :: owned))).Perm
          (rightPage :: newPage :: (p :: up ++ owned)) := by
        grind
      have hlp := hlx.perm hperm
      refine tooLarge_step (freePage_steps p) (freePage_ends (hlp.bounds mem_cons_self).1) fun _ y hfree => ?_
      obtain ⟨hly, hty⟩ := Ledger.free hlp hfree
      rw [← hty.pageSize] at hfl hfr ⊢
      have hnew : ∀ q ∈ up, q ∉ [newPage, rightPage] := by
        intro q hq hmem
        have hq' : q ∈ p :: up ++ owned := mem_append_left _ (mem_cons_of_mem _ hq)
        obtain ⟨hright, hrest⟩ := nodup_cons.mp hlv.nodup
        rcases mem_cons.mp hmem with rfl | hmem
        · exact (nodup_cons.mp hrest).1 hq'
        · rw [mem_singleton.mp hmem] at hq'
          exact hright (mem_cons_of_mem _ hq')
      refine tooLarge_step (.modify (fun _ => rfl) fun _ _ _ => rfl) (Ends.modify fun hs => hs)
        fun _ z hmod => ?_
      obtain rfl := modify_eq_ok.mp hmod
      have hlz : Ledger source (remapDirtyParentPathsSplit p newPage rightPage r y)
          (up ++ rightPage :: newPage :: owned) := ⟨hly.four, hly.law, hly.drawn⟩
      have hspine := Session.Spine.touch hup (htx.trans hty) hnew
      have hspine : (remapDirtyParentPathsSplit p newPage rightPage r y).Spine up nodes := hspine
      exact .congr (ih hlz hspine) ⟨fun h => h.2.2, fun h => ⟨hfl, hfr, h⟩⟩

/-! ## §3. Inserts -/

variable {g : Surroundings} {s : Session} {retired : List PageId} {h H : Nat} {id : PageId}
  {records : List (Bytes × Stored)}

/-- The branches above a hole, nearest first. -/
def Ctx.branches : {h H : Nat} → Ctx PageId Bytes Stored h H → PageId → List Internal
  | _, _, .top, _ => []
  | _, _, .cons f up, hole => frameNode hole f :: Ctx.branches up f.id

theorem Session.Spine.of_ctx (c : Ctx PageId Bytes Stored h H) :
    ∀ {hole : PageId}, (∀ e ∈ c.cells hole, s.Shows e.1 e.2) →
      s.Spine c.pathIds (Ctx.branches c hole) := by
  induction c with
  | top => exact fun _ => .nil
  | cons f up ih =>
    intro hole hshows
    have hlook := (shows_frameNode f).mp (hshows _ mem_cons_self)
    exact .cons (Session.page_of_look_internal hlook).1
      (ih fun e he => hshows e (mem_cons_of_mem _ (mem_append_right _ he)))

/-- The branch on a page. -/
def Session.branchAt (s : Session) (p : PageId) : Option Internal :=
  match s.pager.page p with
  | some (.internal node) => some node
  | _ => none

theorem Session.Spine.filterMap {up : List PageId} {nodes : List Internal} (h : s.Spine up nodes) :
    up.filterMap s.branchAt = nodes := by
  induction h with
  | nil => rfl
  | @cons p node _ _ hpage _ ih =>
    have hat : s.branchAt p = some node := by
      unfold Session.branchAt
      rw [hpage]
    rw [filterMap_cons_some hat, ih]

/-- The nodes that a leaf sends separators to fit, if it is too large.  A leaf that
    cannot be split sends none. -/
def Leaf.SplitsFit (leaf : Leaf) (monotonic : Bool) (pageSize : Nat) (up : List Internal) : Prop :=
  leaf.fits pageSize = true
    ∨ ∀ l r sep, splitLeaf leaf monotonic pageSize = some (l, r, sep) → SplitFits pageSize up sep

/-- **A leaf that splits.** -/
theorem splitAtPath_tooLarge {c : Ctx PageId Bytes Stored 0 H} {fresh monotonic : Bool}
    {leaf : Leaf} (hs : Holds g s retired [] (c.plug (.leaf id records)))
    (hcached : s.CachedAt id fresh leaf) (hrecords : leaf.records = leafRecords records)
    (hover : ¬ leaf.fits s.pageSize = true) :
    TooLargeUnless (leaf.SplitsFit monotonic s.pageSize (Ctx.branches c id))
      (splitAtPath id fresh c.pathIds leaf monotonic) s := by
  unfold splitAtPath
  refine tooLarge_step (takeCachedLeaf_steps id fresh) (Ends.modify fun hclear => ?_) fun _ s₁ htake => ?_
  · cases fresh <;> exact hclear
  obtain ⟨h₁, -, -⟩ := hs.take hcached htake
  rw [← pageSize_of_steps (@takeCachedLeaf_steps false id fresh) htake] at hover ⊢
  refine tooLarge_step .allocate (allocatePage_ends h₁.ledger) fun newLeaf s₂ halloc => ?_
  obtain ⟨hl₂, ht₂⟩ := h₁.ledger.allocate halloc
  rw [← ht₂.pageSize] at hover ⊢
  refine Refuses.get ?_
  cases hsplit : splitLeaf leaf monotonic s₂.pageSize with
  | none =>
    refine .never (FailsOnly.throw (by decide)) (Or.inr fun l r sep hsome => ?_)
    rw [hsplit] at hsome
    cases hsome
  | some halves =>
    obtain ⟨l, r, sep⟩ := halves
    have hiff : leaf.SplitsFit monotonic s₂.pageSize (Ctx.branches c id)
        ↔ SplitFits s₂.pageSize (Ctx.branches c id) sep := by
      unfold Leaf.SplitsFit
      rw [or_iff_right hover, hsplit]
      constructor
      · exact fun h => h l r sep rfl
      · rintro h _ _ _ ⟨⟩
        exact h
    dsimp only
    refine .congr ?_ hiff
    refine tooLarge_step .allocate (allocatePage_ends hl₂) fun right s₃ halloc' => ?_
    obtain ⟨hl₃, ht₃⟩ := hl₂.allocate halloc'
    rw [← ht₃.pageSize]
    refine tooLarge_step (.modify (fun _ => rfl) fun _ _ _ => rfl) (Ends.modify fun hs => hs) fun _ s₄ hmod => ?_
    obtain rfl := modify_eq_ok.mp hmod
    have hfour : 4 ≤ id := (hl₃.bounds (mem_cons_of_mem _ (mem_cons_of_mem _ mem_cons_self))).1
    refine tooLarge_step (freePage_steps id) (freePage_ends hfour) fun _ s₅ hfree => ?_
    obtain ⟨A, a, b, B, rfl, rfl, hhole⟩ :=
      splitAtPath_hole hs hcached hrecords htake halloc hsplit halloc' hfree
    have hsub : c.pathIds.Sublist (List.flatMap Node.ids
        [Node.leaf newLeaf (A ++ [a]), Node.leaf right (b :: B)] ++ c.ids) :=
      c.pathIds_sublist.trans (sublist_append_right _ _)
    obtain ⟨owned, howned⟩ := (hsub.trans (sublist_append_left _ _)).exists_perm_append
    have hsize := pageSize_of_steps (@freePage_steps false id) hfree
    rw [show s₃.pageSize = s₅.pageSize from hsize.symm]
    exact propagateSplitUp_tooLarge c.pathIds (hhole.live.ledger.perm howned.symm) (.of_ctx c hhole.ctx)

/-- The leaf at the end of a path and the branches above it take the record. -/
def Session.TakesAt (s : Session) (path : List PageId) (k : Bytes) (value : LeafValue) : Prop :=
  ∀ id leaf, path.getLast? = some id → s.leafAt id = some leaf →
    (leaf.upsert k value).1.SplitsFit (leaf.appends k) s.pageSize
      (path.dropLast.reverse.filterMap s.branchAt)

theorem Session.CachedAt.leafAt {fresh : Bool} {leaf : Leaf} (h : s.CachedAt id fresh leaf) :
    s.leafAt id = some leaf := by
  unfold Session.leafAt
  cases fresh with
  | true =>
    have h : s.freshLeaves.lookup id = some leaf := h
    rw [h]
  | false =>
    obtain ⟨hf, hd⟩ : s.freshLeaves.lookup id = none ∧ s.dirtyLeaves.lookup id = some leaf := h
    rw [hf, hd]

/-- **An insert along a path.** -/
theorem putAtPath_tooLarge {c : Ctx PageId Bytes Stored 0 H} {k : Bytes} {v : Stored}
    {left right : List (Bytes × Stored)} {old : Option Stored}
    (hs : Holds g s retired v.pages (c.plug (.leaf id (around left k old right))))
    (hcut : Cut c k left right) (hheld : v.Held s.pager) :
    TooLargeUnless (s.TakesAt (c.pathIds.reverse ++ [id]) k v.leafValue)
      (putAtPath (c.pathIds.reverse ++ [id]) k v.leafValue) s := by
  have hcells : ∀ e ∈ c.cells id, s.Shows e.1 e.2 := fun e he =>
    hs.rep e ((c.plug_cells (.leaf id _)).symm.subset (mem_append_right _ he))
  have hspine := (Session.Spine.of_ctx c hcells).filterMap
  unfold putAtPath
  rw [getLast?_concat]
  dsimp only
  rw [dropLast_concat]
  refine tooLarge_step (touchLeaf_steps id _) (touchLeaf_ends hs) ?_
  rintro ⟨fresh, leaf⟩ s₁ htouch
  obtain ⟨h₁, hcached, hleaf, hpager⟩ := touchLeaf_spec hs htouch
  have hat : s.leafAt id = some leaf := by
    rw [← touchLeaf_leafAt htouch id]
    exact hcached.leafAt
  have htakes : s.TakesAt (c.pathIds.reverse ++ [id]) k v.leafValue
      ↔ (leaf.upsert k v.leafValue).1.SplitsFit (leaf.appends k) s.pageSize (Ctx.branches c id) := by
    unfold Session.TakesAt
    rw [getLast?_concat, dropLast_concat, reverse_reverse, hspine]
    constructor
    · exact fun h => h id leaf rfl hat
    · rintro h _ leaf' ⟨⟩ hleaf'
      rw [hat] at hleaf'
      cases hleaf'
      exact h
  refine .congr ?_ htakes
  obtain ⟨leaf', hupsert, hnew, hedit⟩ := hs.upsert hcut hheld htouch
  dsimp only
  rw [hupsert]
  dsimp only
  rw [← pageSize_of_steps (@touchLeaf_steps false id _) htouch]
  refine tooLarge_step (setCachedLeaf_steps id fresh leaf') (Ends.modify fun hclear => ?_) fun _ s₂ hset => ?_
  · cases fresh <;> exact hclear
  have hheld₁ : ∀ w ∈ some v, w.Held s₁.pager := by
    rintro w ⟨⟩
    exact hheld.congr fun p _ => hpager p
  have h₁' := h₁
  rw [← append_nil v.pages] at h₁'
  obtain ⟨h₂, -, hsize₂, hold⟩ := h₁'.exchange (some v) hcut hcached hheld₁ hnew hset
  have hl₂ := h₂.live.ledger
  rw [append_assoc] at hl₂
  rw [← hsize₂]
  refine tooLarge_step (releaseOld_steps (putUndo_steps id fresh k (old.map Stored.leafValue))
    (old.map Stored.leafValue)) (releaseOld_ends hold hl₂) fun _ s₃ hrelease => ?_
  obtain ⟨-, ht₃⟩ := releaseOld_spec hold hl₂ hrelease
  rw [← ht₃.pageSize]
  obtain ⟨h₃, hcached₃⟩ := hedit hset hrelease
  refine Refuses.get ?_
  split_ifs with hroom
  · exact .never (FailsOnly.pure _) (Or.inl hroom)
  · rw [reverse_reverse]
    refine (splitAtPath_tooLarge h₃ hcached₃ hnew hroom).last fun _ _ _ => FailsOnly.pure _

/-! ## §4. Puts -/

variable {hash : HashOrder} {last : Option Bytes} {k v : Bytes}

/-- Where `put` takes its record: the stored value, and the path to the leaf. -/
def putWay (key value : Bytes) : TreeM (LeafValue × List PageId) := do
  invalidateAppendState
  let leafValue ← leafValueFor value
  let path ← pathToLeafForKey key
  pure (leafValue, path)

/-- Every node that `put` writes on its path fits. -/
def Session.PutFits (s : Session) (k v : Bytes) : Prop :=
  ∀ leafValue path t, s.rootPageId ≠ 0 → putWay k v s = .ok (leafValue, path) t →
    t.TakesAt path k leafValue

/-- The first record of a tree fits its leaf. -/
theorem putFirst_notTooLarge {value : LeafValue}
    (hfits : singleRecordFitsEncoded k.length value.encodedSize s.pageSize = true) :
    FailsOnly (fun e => e ≠ .payloadTooLarge) (putFirst k value) s := by
  unfold putFirst
  refine (notTooLarge .allocate).bind fun root t halloc => ?_
  refine FailsOnly.bind ?_ fun _ _ _ => nofun
  unfold writeLeaf
  refine FailsOnly.get ?_
  have hleaf : (Leaf.new.upsert k value).1.fits t.pageSize = true := by
    rw [pageSize_of_steps (@Steps.allocate false) halloc]
    exact sliceFits_singleton hfits
  rw [if_pos hleaf]
  exact notTooLarge (.write root fun s => s.allows_leaf _)

theorem validateInsertRecordFits_congr {t : Session} (hsize : t.pageSize = s.pageSize)
    (hvalid : validateInsertRecordFits k v s = .ok () s) :
    validateInsertRecordFits k v t = .ok () t := by
  unfold validateInsertRecordFits at *
  rw [get_bind] at *
  rw [hsize]
  split at hvalid
  · rename_i hfits
    rw [if_pos hfits]
    rfl
  · cases hvalid

/-- **A put of an accepted record.** -/
theorem treePut_tooLarge {i : Image} (hs : Carries g s retired i)
    (hvalid : validateInsertRecordFits k v s = .ok () s) :
    TooLargeUnless (s.PutFits k v) (treePut k v) s := by
  unfold treePut
  have hmarks : invalidateAppendState s = .ok () (s.marked none none) := rfl
  refine .behind hmarks ?_ fun hs => hs
  have h₁ := invalidateAppendState_spec hs hmarks
  have hsame : (s.marked none none).pageSize = s.pageSize := rfl
  have hvalid₁ := validateInsertRecordFits_congr hsame hvalid
  refine .behind hvalid₁ ?_ fun hs => hs
  refine tooLarge_step (leafValueFor_steps v) (leafValueFor_ends h₁.live.ledger (fits_of_validate hvalid₁))
    fun lv s₃ hvalue => ?_
  have hsize := leafValueFor_encodedSize hvalue
  obtain ⟨v', hv', rfl, hheld, hl₃, ht₃⟩ := leafValueFor_spec h₁.live.ledger hvalue
  have hroot : s₃.rootPageId = i.root := ht₃.root.trans h₁.root.symm
  refine Refuses.get ?_
  cases i with
  | empty =>
    rw [if_pos (show s₃.rootPageId = 0 from hroot)]
    refine .never (putFirst_notTooLarge ?_) fun _ _ _ hne _ => absurd hs.root.symm hne
    rw [hsize, ht₃.pageSize]
    exact fits_of_validate hvalid₁
  | tree t =>
    have hholds : Holds g s₃ retired v'.pages t :=
      h₁.holds.touch ht₃ hl₃ (List.Subset.refl _)
    rw [if_neg hholds.readable.root_ne_zero]
    refine tooLarge_step (pathToLeafForKey_steps k)
      (hholds.readable.outline.path_returns k).ends fun path s₄ hpath => ?_
    obtain ⟨hq, c, id, left, right, old, rfl, hcut, rfl⟩ :=
      (hholds.readable.outline.path_returns k).sound _ _ hpath
    have hheld₄ : v'.Held s₄.pager := by
      obtain ⟨faults, rfl⟩ := hq
      exact hheld.congr fun _ _ => rfl
    -- the put has come the way of `putWay`
    have hway : putWay k v s = .ok (v'.leafValue, c.pathIds.reverse ++ [id]) s₄ := by
      unfold putWay
      rw [bind_of_ok hmarks, bind_of_ok hvalue, bind_of_ok hpath]
      rfl
    have hiff : s.PutFits k v ↔ s₄.TakesAt (c.pathIds.reverse ++ [id]) k v'.leafValue := by
      constructor
      · exact fun h => h _ _ _ hs.readable.root_ne_zero hway
      · intro h lv path t _ hrun
        rw [hway] at hrun
        cases hrun
        exact h
    refine .congr ?_ hiff
    exact (putAtPath_tooLarge (hholds.quiet hq) hcut hheld₄).last fun _ _ _ => FailsOnly.pure _

/-- Keys of 1 and of 1340 bytes, each with a value of which a page takes four.  The
    root then holds the separators 5, 7 of 1340 bytes and 21, 25, 29 of one byte. -/
def unevenCalls : List TreeCall :=
  [[1], [2], [3], [4], wideKey 5 1339, wideKey 7 1339, [20], [21], [22], [23], [24], [25], [26],
    [27], [28], [29]].map fun key => .put key quarter

end Pagedb
