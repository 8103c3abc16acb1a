/-
  Pagedb.BTree.Batch — `put_batch` and `delete_batch` (`btree/tree/write.rs`).

  A batch keeps the path of the last key's leaf together with the separators
  around it, and takes the path again while keys fall between them.  The
  separators of a path are those around its leaf (`separatorBoundsForPath_returns`),
  and a key between them belongs into that leaf, so a path taken again is the
  path a descent would find.

  Main results:
    * `reuseOrDescend_returns` — every key goes to its own leaf;
    * `putBatchFrom_spec`, `deleteBatchFrom_returns` — the batches, record by
      record; deletes move no leaf and keep the links between leaves.
-/
import Pagedb.BTree.Sweep
import Pagedb.BTree.Total

namespace Pagedb

open Lib List

variable {g : Surroundings} {s s' : Session} {retired : List PageId} {i : Image} {h H : Nat}
  {t : PageTree H}

/-! ## §1. Separators of a path -/

/-- What one ancestor adds to the bounds. -/
theorem bound_fill (f : Frame PageId Bytes Stored h) (n : PageTree h)
    (hnodup : ((f.fill n).kids.map Node.id).Nodup) (b : LeafBounds) :
    (nodeOf (f.fill n)).bound n.id b = ⟨b.lower.or f.lower, b.upper.or f.upper⟩ := by
  cases f with
  | atFirst id rest =>
    show (if n.id = n.id then
      { b with upper := b.upper.or ((Node.links rest).head?.map Prod.fst) } else _) = _
    rw [if_pos rfl]
    have hhead : (Node.links rest).head?.map Prod.fst = rest.head?.map Prod.fst := by
      cases rest <;> rfl
    rw [hhead]
    show (⟨b.lower, _⟩ : LeafBounds) = ⟨b.lower.or none, _⟩
    rw [Option.or_none]
    rfl
  | atLater id first before k after =>
    obtain ⟨hfirst, hbefore⟩ := hole_apart hnodup
    obtain ⟨hdrop, -⟩ := dropWhile_links k after hbefore
    show (if first.id = n.id then _ else _) = _
    rw [if_neg hfirst]
    dsimp only [Frame.fill, nodeOf]
    rw [hdrop]
    cases after <;> rfl

/-- The bounds found so far, completed by the separators around the hole. -/
theorem separatorBoundsFrom_returns (c : Ctx PageId Bytes Stored h H) :
    ∀ (n : PageTree h) (b : LeafBounds) (s : Session), Rep s.Shows (c.plug n) →
      (c.plug n).ids.Nodup →
      Returns Session.Clear (separatorBoundsFrom c.pathIds n.id b) s fun r s' =>
        r = ⟨b.lower.or c.lower, b.upper.or c.upper⟩ ∧ s.Quiet s' := by
  induction c with
  | top =>
    intro n b s _ _
    refine Returns.pure ⟨?_, Session.Quiet.refl s⟩
    show b = ⟨b.lower.or none, b.upper.or none⟩
    rw [Option.or_none, Option.or_none]
  | cons f up ih =>
    intro n b s hrep hnodup
    have hrep : Rep s.Shows (up.plug (f.fill n)) := hrep
    have hown : s.Shows (f.fill n).id (f.fill n).cell := hrep _
      ((up.plug_cells (f.fill n)).mem_iff.mpr (mem_append_left _ (f.fill n).own_cell_mem))
    have hsub : (f.fill n).ids.Nodup :=
      ((up.plug_ids (f.fill n)).nodup_iff.mp hnodup).of_append_left
    show Returns Session.Clear (separatorBoundsFrom (f.id :: up.pathIds) n.id b) s _
    unfold separatorBoundsFrom
    rw [← Frame.fill_id f n]
    refine (readAncestor_returns hown).bind ?_
    rintro _ u ⟨rfl, hq⟩
    rw [bound_fill f n (kids_ids_nodup hsub)]
    dsimp only
    split_ifs with hboth
    · -- both are found: the ancestors above have nothing to add
      obtain ⟨hl, hu⟩ := Bool.and_eq_true_iff.mp hboth
      refine Returns.pure ⟨?_, hq⟩
      show (⟨b.lower.or f.lower, b.upper.or f.upper⟩ : LeafBounds)
        = ⟨b.lower.or (f.lower.or up.lower), b.upper.or (f.upper.or up.upper)⟩
      rw [← Option.or_assoc, ← Option.or_assoc, Option.or_of_isSome hl, Option.or_of_isSome hu]
    · refine (ih (f.fill n) ⟨b.lower.or f.lower, b.upper.or f.upper⟩ u
        (fun e he => hq.shows (hrep e he)) hnodup).weaken ?_
      rintro r w ⟨rfl, hq'⟩
      refine ⟨?_, hq.trans hq'⟩
      show (⟨(b.lower.or f.lower).or up.lower, (b.upper.or f.upper).or up.upper⟩ : LeafBounds)
        = ⟨b.lower.or (f.lower.or up.lower), b.upper.or (f.upper.or up.upper)⟩
      rw [Option.or_assoc, Option.or_assoc]

variable {id : PageId} {k : Bytes} {leaf : Leaf}

/-- **The bounds of a path are the separators around its leaf.** -/
theorem separatorBoundsForPath_returns {c : Ctx PageId Bytes Stored 0 H}
    {records : List (Bytes × Stored)} (hr : Readable s (.tree (c.plug (.leaf id records)))) :
    Returns Session.Clear (separatorBoundsForPath (c.pathIds.reverse ++ [id])) s fun r s' =>
      r = ⟨c.lower, c.upper⟩ ∧ s.Quiet s' := by
  unfold separatorBoundsForPath
  rw [getLast?_concat]
  dsimp only
  rw [dropLast_concat, reverse_reverse]
  exact separatorBoundsFrom_returns c (.leaf id records) ⟨none, none⟩ s hr.rep hr.nodup

/-! ## §2. Paths taken again -/

/-- The path a batch remembers leads to a leaf of the tree, and the bounds are the
    separators around it. -/
def Remembered (t : PageTree H) : Option (List PageId × LeafBounds) → Prop
  | none => True
  | some (path, b) => ∃ (c : Ctx PageId Bytes Stored 0 H) (id : PageId)
      (records : List (Bytes × Stored)), t = c.plug (.leaf id records)
        ∧ path = c.pathIds.reverse ++ [id] ∧ b = ⟨c.lower, c.upper⟩

/-- The path leads to the leaf where the key belongs. -/
def LeadsTo (t : PageTree H) (k : Bytes) (path : List PageId) (b : LeafBounds) : Prop :=
  ∃ (c : Ctx PageId Bytes Stored 0 H) (id : PageId) (left right : List (Bytes × Stored))
    (old : Option Stored), t = c.plug (.leaf id (around left k old right)) ∧ Cut c k left right
      ∧ path = c.pathIds.reverse ++ [id] ∧ b = ⟨c.lower, c.upper⟩

/-- A key between the separators around a leaf belongs into it. -/
theorem leadsTo_of_contains {path : List PageId} {b : LeafBounds} (hord : InOrder t.items)
    (hmem : Remembered t (some (path, b))) (hk : b.contains k = true) : LeadsTo t k path b := by
  obtain ⟨c, id, records, rfl, rfl, rfl⟩ := hmem
  have hitems := hord
  rw [Ctx.plug_items] at hitems
  obtain ⟨hbefore, hafter, -⟩ := pairwise_append.mp hitems
  obtain ⟨hlower, hupper⟩ := Bool.and_eq_true_iff.mp hk
  have hb : ∀ x ∈ c.before, x.Before k := by
    refine Ctx.before_of_lower (pairwise_append.mp hbefore).1 fun a ha => ?_
    have hlower : c.lower.all (fun lower => decide (lower ≤ k)) = true := hlower
    rw [Option.mem_def.mp ha] at hlower
    exact of_decide_eq_true hlower
  have ha : ∀ x ∈ c.after, x.After k := by
    refine Ctx.after_of_upper hafter fun a ha => ?_
    have hupper : c.upper.all (fun upper => decide (k < upper)) = true := hupper
    rw [Option.mem_def.mp ha] at hupper
    exact of_decide_eq_true hupper
  obtain ⟨left, old, right, rfl, hcut⟩ := exists_cut hord hb ha
  exact ⟨c, id, left, right, old, rfl, hcut, rfl, rfl⟩

/-- **Every key of a batch goes to its own leaf**, by the remembered path or by a
    descent. -/
theorem reuseOrDescend_returns {cached : Option (List PageId × LeafBounds)}
    (hr : Readable s (.tree t)) (hcached : Remembered t cached) :
    Returns Session.Clear (reuseOrDescend k cached) s fun r s' =>
      LeadsTo t k r.1 r.2 ∧ s.Quiet s' := by
  unfold reuseOrDescend
  cases hfilter : cached.filter fun c => c.2.contains k with
  | some reusable =>
    obtain ⟨heq, hin⟩ := Option.filter_eq_some_iff.mp hfilter
    rw [heq] at hcached
    exact Returns.pure ⟨leadsTo_of_contains hr.ordered hcached hin, Session.Quiet.refl s⟩
  | none =>
    refine (hr.outline.path_returns k).bind ?_
    rintro _ u ⟨hq, c, id, left, right, old, rfl, hcut, rfl⟩
    refine (separatorBoundsForPath_returns (hr.quiet hq)).bind ?_
    rintro b w ⟨rfl, hq'⟩
    exact Returns.pure ⟨⟨c, id, left, right, old, rfl, hcut, rfl, rfl⟩, hq.trans hq'⟩

/-! ## §3. The batches -/

/-- The map after the records of a list were put in order. -/
def putAll (m : Bytes → Option Bytes) (pairs : List (Bytes × Bytes)) : Bytes → Option Bytes :=
  pairs.foldl (fun m p => Function.update m p.1 (some p.2)) m

/-- The map after the keys of a list were deleted in order. -/
def dropAll (m : Bytes → Option Bytes) (keys : List Bytes) : Bytes → Option Bytes :=
  keys.foldl (fun m k => Function.update m k none) m

/-- The path a batch remembers is one of the image's tree. -/
def Image.Remembers (i : Image) (cached : Option (List PageId × LeafBounds)) : Prop :=
  ∀ path b, cached = some (path, b) → ∃ (h : Nat) (t : PageTree h),
    i = .tree t ∧ Remembered t (some (path, b))

theorem Image.remembers_none (i : Image) : i.Remembers none := by
  intro path b hc
  cases hc

theorem Image.Remembers.tree {cached : Option (List PageId × LeafBounds)}
    (hc : (Image.tree t).Remembers cached) : Remembered t cached := by
  cases cached with
  | none => trivial
  | some c =>
    obtain ⟨h, t', heq, hmem⟩ := hc c.1 c.2 rfl
    cases heq
    exact hmem

/-- **`put_batch` puts its records one after the other**, whatever paths it takes
    again and whatever leaves split on the way. -/
theorem putBatchFrom_spec (pairs : List (Bytes × Bytes)) :
    ∀ {s s' : Session} {i : Image} {cached : Option (List PageId × LeafBounds)} {u : Unit},
      Carries g s retired i → i.Remembers cached → putBatchFrom pairs cached s = .ok u s' →
      ∃ i' : Image, Carries g s' retired i' ∧ i'.map = putAll i.map pairs := by
  induction pairs with
  | nil =>
    intro s s' i cached u hs _ hrun
    obtain ⟨-, rfl⟩ := pure_eq_ok.mp hrun
    exact ⟨i, hs, rfl⟩
  | cons p pairs ih =>
    intro s s' i cached u hs hcached hrun
    obtain ⟨key, value⟩ := p
    unfold putBatchFrom at hrun
    obtain ⟨_, s₁, hvalid, hrest⟩ := bind_eq_ok.mp hrun
    rw [validateInsertRecordFits_eq_ok hvalid, get_bind, ← hs.root] at hrest
    cases i with
    | empty =>
      rw [if_pos (show Image.root .empty = 0 from rfl)] at hrest
      obtain ⟨_, s₂, hput, hrest⟩ := bind_eq_ok.mp hrest
      obtain ⟨i₂, hs₂, hmap₂⟩ := treePut_spec hs hput
      have hnone : cached = none := by
        cases cached with
        | none => rfl
        | some c =>
          obtain ⟨h, t, heq, -⟩ := hcached c.1 c.2 rfl
          cases heq
      subst hnone
      obtain ⟨i', hs', hmap⟩ := ih hs₂ i₂.remembers_none hrest
      refine ⟨i', hs', ?_⟩
      rw [hmap, hmap₂]
      rfl
    | tree t =>
      rw [if_neg hs.readable.outline.image_root] at hrest
      obtain ⟨⟨path, b⟩, s₂, hpath, hrest⟩ := bind_eq_ok.mp hrest
      obtain ⟨⟨c, id, left, right, old, rfl, hcut, hpath', rfl⟩, hq⟩ :=
        (reuseOrDescend_returns hs.readable hcached.tree).sound _ _ hpath
      have hpath' : path = c.pathIds.reverse ++ [id] := hpath'
      subst hpath'
      obtain ⟨lv, s₃, hvalue, hrest⟩ := bind_eq_ok.mp hrest
      obtain ⟨split, s₄, hput, hrest⟩ := bind_eq_ok.mp hrest
      have h₂ := hs.holds.quiet hq
      obtain ⟨v, rfl, rfl, hheld, hl₃, ht₃⟩ := leafValueFor_spec h₂.live.ledger hvalue
      have h₃ : Holds g s₃ retired v.pages _ := h₂.touch ht₃ hl₃ (List.Subset.refl _)
      have hcontents := hcut.contents_eq id old (some v)
      rcases putAtPath_cases h₃ hcut hheld hput with ⟨rfl, h₄⟩ | ⟨rfl, H', t', h₄, hitems⟩
      · -- the leaf stayed: the path and its bounds still hold
        obtain ⟨i', hs', hmap⟩ := ih (.of_holds h₄) (fun path b heq => by
          cases heq
          exact ⟨_, _, rfl, c, id, _, rfl, rfl, rfl⟩) hrest
        refine ⟨i', hs', ?_⟩
        rw [hmap]
        exact congrArg (fun m => putAll m pairs) hcontents
      · obtain ⟨i', hs', hmap⟩ := ih (.of_holds h₄) (Image.remembers_none _) hrest
        refine ⟨i', hs', ?_⟩
        rw [hmap]
        exact congrArg (fun m => putAll m pairs) ((hitems.contents_eq id).trans hcontents)

/-! ## §4. Links between leaves -/

/-- The link a leaf carries to its right neighbour. -/
def Session.linkAt (s : Session) (id : PageId) : Option PageId :=
  (s.leafAt id).map Leaf.rightSibling

theorem touchLeaf_leafAt {ancestors : List PageId} {fresh : Bool}
    (hrun : touchLeaf id ancestors s = .ok (fresh, leaf) s') (p : PageId) :
    s'.leafAt p = s.leafAt p := by
  obtain ⟨-, rfl | ⟨v, ⟨faults, rfl⟩, hf, hd, hpage, rfl⟩⟩ := touchLeaf_eq_ok hrun
  · rfl
  · -- the copy in the cache shadows the page it was read from
    unfold Session.leafAt Session.withDirty
    dsimp only
    by_cases hp : p = id
    · subst hp
      rw [hf, hd, hpage, AList.lookup_insert]
    · rw [AList.lookup_insert_ne hp]
      rfl

theorem setCachedLeaf_linkAt {fresh : Bool} {leaf' : Leaf} {u : Unit}
    (hcached : s.CachedAt id fresh leaf) (hlink : leaf'.rightSibling = leaf.rightSibling)
    (hset : setCachedLeaf id fresh leaf' s = .ok u s') (p : PageId) : s'.linkAt p = s.linkAt p := by
  have hs' := setCachedLeaf_eq_ok hset
  unfold Session.linkAt Session.leafAt
  cases fresh with
  | true =>
    have hcached : s.freshLeaves.lookup id = some leaf := hcached
    rw [if_pos rfl] at hs'
    subst hs'
    dsimp only
    by_cases hp : p = id
    · subst hp
      rw [AList.lookup_insert, hcached]
      exact congrArg some hlink
    · rw [AList.lookup_insert_ne hp]
  | false =>
    obtain ⟨hf, hd⟩ : s.freshLeaves.lookup id = none ∧ s.dirtyLeaves.lookup id = some leaf := hcached
    rw [if_neg Bool.false_ne_true] at hs'
    subst hs'
    dsimp only
    by_cases hp : p = id
    · subst hp
      rw [hf, hd, AList.lookup_insert]
      exact congrArg some hlink
    · rw [AList.lookup_insert_ne hp]

/-- A delete keeps every link. -/
theorem deleteAtPath_linkAt {c : Ctx PageId Bytes Stored 0 H} {left right : List (Bytes × Stored)}
    {old : Option Stored} {found : Bool}
    (hs : Holds g s retired [] (c.plug (.leaf id (around left k old right))))
    (hcut : Cut c k left right) (hrun : deleteAtPath (c.pathIds.reverse ++ [id]) k s = .ok found s')
    (p : PageId) : s'.linkAt p = s.linkAt p := by
  obtain ⟨fresh, leaf, leaf', s₁, s₂, _, _, undo, htouch, h₁, hcached, hnew, hlink, hset, hrelease, -⟩ :=
    deleteAtPath_eq_ok hs hcut hrun
  obtain ⟨h₂, -, -, hheld⟩ := h₁.exchange none hcut hcached (nofun) hnew hset
  have hl₂ := h₂.live.ledger
  rw [append_assoc] at hl₂
  obtain ⟨-, ht⟩ := releaseOld_spec hheld hl₂ hrelease
  calc s'.linkAt p = s₂.linkAt p := by
        unfold Session.linkAt
        rw [ht.leafAt not_mem_nil]
    _ = s₁.linkAt p := setCachedLeaf_linkAt hcached hlink hset p
    _ = s.linkAt p := by
        unfold Session.linkAt
        rw [touchLeaf_leafAt htouch p]

/-- The tree has the same leaves in the same places but for records of these keys. -/
def Thinned (keys : List Bytes) {H : Nat} (t t' : PageTree H) : Prop :=
  separatorsOf t'.items = separatorsOf t.items ∧ ∀ q : Bytes → Bool, (∀ k ∈ keys, q k = false) →
    t'.leaves.map (LeafAt.only q) = t.leaves.map (LeafAt.only q)

theorem Thinned.refl (t : PageTree H) : Thinned [] t t := ⟨rfl, fun _ _ => rfl⟩

theorem Thinned.trans {keys : List Bytes} {t₁ t₂ t₃ : PageTree H} (h : Thinned [k] t₁ t₂)
    (h' : Thinned keys t₂ t₃) : Thinned (k :: keys) t₁ t₃ := by
  refine ⟨h'.1.trans h.1, fun q hq => (h'.2 q fun j hj => hq j (mem_cons_of_mem _ hj)).trans ?_⟩
  refine h.2 q fun j hj => hq j ?_
  rw [mem_singleton.mp hj]
  exact mem_cons_self

/-- A record taken out of a leaf. -/
theorem thinned_plug (c : Ctx PageId Bytes Stored 0 H) (id : PageId)
    (left right : List (Bytes × Stored)) (old : Option Stored) :
    Thinned [k] (c.plug (.leaf id (around left k old right)))
      (c.plug (.leaf id (around left k none right))) := by
  refine ⟨?_, fun q hq => ?_⟩
  · have hnone : ∀ value, separatorsOf (Node.leaf id (around left k value right) : PageTree 0).items
        = [] := fun value => separatorsOf_records _
    rw [Ctx.plug_items, Ctx.plug_items, separatorsOf_append, separatorsOf_append, separatorsOf_append,
      separatorsOf_append, hnone, hnone]
  · have hk := hq k (mem_singleton_self k)
    have hfilter : (around left k old right).filter (fun r => q r.1)
        = (around left k none right).filter fun r => q r.1 := by
      unfold around
      cases old with
      | none => rfl
      | some v => simp [hk]
    have hleaves : ∀ records, (c.plug (.leaf id records)).leaves = (c.ahead .left).reverse
        ++ (⟨c.pathIds.reverse ++ [], id, records⟩ :: c.ahead .right) := fun records =>
      Ctx.plug_leaves .right c (.leaf id records)
    have hone : ∀ records : List (Bytes × Stored), LeafAt.only q ⟨c.pathIds.reverse ++ [], id, records⟩
        = ⟨c.pathIds.reverse ++ [], id, records.filter fun r => q r.1⟩ := fun _ => rfl
    rw [hleaves, hleaves, map_append, map_append, map_cons, map_cons, hone, hone, hfilter]

/-! ## §5. Deletes -/

/-- **`delete_batch` deletes its keys one after the other**, and returns unless an
    await fails.  The leaves stay where they are, and no link changes. -/
theorem deleteBatchFrom_returns (keys : List Bytes) :
    ∀ {s : Session} {H : Nat} {t : PageTree H} {cached : Option (List PageId × LeafBounds)},
      Holds g s retired [] t → Remembered t cached →
      Returns Session.Clear (deleteBatchFrom keys cached) s fun _ s' =>
        ∃ t' : PageTree H, Holds g s' retired [] t'
          ∧ contents t'.items = dropAll (contents t.items) keys
          ∧ Thinned keys t t' ∧ ∀ p, s'.linkAt p = s.linkAt p := by
  induction keys with
  | nil =>
    intro s H t cached hs _
    exact Returns.pure ⟨t, hs, rfl, .refl t, fun _ => rfl⟩
  | cons key keys ih =>
    intro s H t cached hs hcached
    unfold deleteBatchFrom
    refine (reuseOrDescend_returns (Carries.of_holds hs).readable hcached).bind ?_
    rintro ⟨path, b⟩ s₁ ⟨⟨c, id, left, right, old, rfl, hcut, hpath, rfl⟩, hq⟩
    have hpath : path = c.pathIds.reverse ++ [id] := hpath
    subst hpath
    have h₁ := hs.quiet hq
    refine ((deleteAtPath_ends h₁ hcut).returns fun _ _ hrun =>
      (⟨deleteAtPath_spec h₁ hcut hrun, deleteAtPath_linkAt h₁ hcut hrun⟩ : _ ∧ _)).bind ?_
    rintro found s₂ ⟨⟨h₂, -⟩, hlinks₂⟩
    have hmem : Remembered (c.plug (.leaf id (around left key none right)))
        (some (c.pathIds.reverse ++ [id], ⟨c.lower, c.upper⟩)) := ⟨c, id, _, rfl, rfl, rfl⟩
    refine (ih h₂ hmem).weaken ?_
    rintro _ s₃ ⟨t', h₃, hmap, hthin, hlinks⟩
    refine ⟨t', h₃, ?_, (thinned_plug c id left right old).trans hthin, fun p => ?_⟩
    · rw [hmap]
      exact congrArg (fun m => dropAll m keys) (hcut.contents_eq id old none)
    · rw [hlinks, hlinks₂]
      unfold Session.linkAt
      rw [hq.leafAt]

/-- The leaves from the one where `k` belongs on. -/
def Image.leavesFrom (k : Bytes) : Image → List (LeafAt PageId Bytes Stored)
  | .empty => []
  | .tree t => t.leavesFrom k

theorem Thinned.leavesFrom {keys : List Bytes} {t t' : PageTree H} (h : Thinned keys t t')
    {q : Bytes → Bool} (hq : ∀ k ∈ keys, q k = false) (k : Bytes) :
    (t'.leavesFrom k).map (LeafAt.only q) = (t.leavesFrom k).map (LeafAt.only q) := by
  unfold Node.leavesFrom
  rw [h.1, map_drop, map_drop, h.2 q hq]

theorem treePutBatch_spec {pairs : List (Bytes × Bytes)} {u : Unit} (hs : Carries g s retired i)
    (hrun : treePutBatch pairs s = .ok u s') :
    ∃ i' : Image, Carries g s' retired i' ∧ i'.map = putAll i.map pairs := by
  unfold treePutBatch at hrun
  obtain ⟨_, s₁, hinv, hrun⟩ := bind_eq_ok.mp hrun
  exact putBatchFrom_spec pairs (invalidateAppendState_spec hs hinv) i.remembers_none hrun

theorem treeDeleteBatch_returns {keys : List Bytes} (hs : Carries g s retired i) :
    Returns Session.Clear (treeDeleteBatch keys) s fun _ s' =>
      ∃ i' : Image, Carries g s' retired i' ∧ i'.map = dropAll i.map keys
        ∧ (∀ q : Bytes → Bool, (∀ k ∈ keys, q k = false) → ∀ k,
          (i'.leavesFrom k).map (LeafAt.only q) = (i.leavesFrom k).map (LeafAt.only q))
        ∧ ∀ p, s'.linkAt p = s.linkAt p := by
  unfold treeDeleteBatch
  have hinv : Returns Session.Clear invalidateAppendState s fun _ s' =>
      Carries g s' retired i ∧ ∀ p, s'.linkAt p = s.linkAt p := by
    refine (Ends.modify fun hclear => hclear).returns fun _ _ hrun =>
      ⟨invalidateAppendState_spec hs hrun, ?_⟩
    obtain rfl := modify_eq_ok.mp hrun
    exact fun _ => rfl
  refine hinv.bind ?_
  rintro _ s₁ ⟨h₁, hlinks₁⟩
  refine Returns.get ?_
  rw [← h₁.root]
  cases i with
  | empty =>
    refine Returns.pure ⟨.empty, h₁, ?_, fun _ _ _ => rfl, hlinks₁⟩
    induction keys with
    | nil => rfl
    | cons k keys ih =>
      show _ = dropAll (Function.update (Image.map .empty) k none) keys
      rw [show Function.update (Image.map .empty) k none = Image.map .empty from
        Function.update_eq_self k (Image.map .empty)]
      exact ih
  | tree t =>
    rw [if_neg h₁.readable.outline.image_root]
    have hnone : Remembered t none := trivial
    refine (deleteBatchFrom_returns keys h₁.holds hnone).weaken ?_
    rintro _ s₂ ⟨t', h₂, hmap, hthin, hlinks⟩
    exact ⟨.tree t', .of_holds h₂, hmap, fun q hq k => hthin.leavesFrom hq k,
      fun p => (hlinks p).trans (hlinks₁ p)⟩

end Pagedb
