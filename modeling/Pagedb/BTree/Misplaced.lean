/-
  Pagedb.BTree.Misplaced — a record in a leaf where its key does not belong.

  A first append into an emptied leaf has no record to compare its key with.  It
  returns; and if the key lies outside the separators of the leaf, the descent for the
  key ends at another leaf, which a lookup then finds without it.

  Main result: `treePutAppend_into_empty`.
-/
import Pagedb.BTree.Calls

namespace Pagedb

open Lib List

variable {g : Surroundings} {s s' : Session} {retired : List PageId} {H : Nat} {t : PageTree H}
  {x id : PageId} {k v : Bytes}

/-! ## §1. Descents past a leaf -/

/-- To a lookup, the sessions differ in the leaf `x` at most. -/
structure Session.SameBut (x : PageId) (s s' : Session) : Prop where
  pager : s'.pager = s.pager
  root : s'.rootPageId = s.rootPageId
  fresh : ∀ p, p ≠ x → s'.freshLeaves.lookup p = s.freshLeaves.lookup p
  dirty : ∀ p, p ≠ x → s'.dirtyLeaves.lookup p = s.dirtyLeaves.lookup p

theorem readNodeGuard_clear (hs : s.Clear) (hpager : s'.pager = s.pager) {n : Leaf ⊕ Internal}
    {u : Session} (hrun : readNodeGuard id s = .ok n u) :
    u = s ∧ readNodeGuard id s' = .ok n s' := by
  have hs' : s'.Clear := by
    unfold Session.Clear
    rw [hpager]
    exact hs
  unfold readNodeGuard at *
  obtain ⟨page, w, hpage, hrun⟩ := bind_eq_ok.mp hrun
  have hpage' := readPage_clear hs' id
  rw [readPage_clear hs] at hpage
  rw [hpager] at hpage'
  cases hp : s.pager.page id with
  | none =>
    rw [hp] at hpage
    cases hpage
  | some page' =>
    rw [hp] at hpage hpage'
    cases hpage
    rw [bind_of_ok hpage']
    cases page with
    | leaf leaf => cases hrun; exact ⟨rfl, rfl⟩
    | internal node => cases hrun; exact ⟨rfl, rfl⟩
    | _ => cases hrun

/-- **A descent that does not end at `x` has not come there.** -/
theorem descendFrom_congr {pick : Internal → PageId} (h : s.SameBut x s') (hs : s.Clear)
    (hleaf : s.freshLeaves.lookup x = none → ∃ leaf, s.pager.page x = some (.leaf leaf)) (turns : Nat) :
    ∀ {path : List PageId} {id : PageId} {r : List PageId × Leaf} {u : Session},
      descendFrom pick turns path id s = .ok r u →
        r.1.getLast? = some x ∨ descendFrom pick turns path id s' = .ok r s' := by
  induction turns with
  | zero =>
    intro path id r u hrun
    cases hrun
  | succ turns ih =>
    intro path id r u hrun
    unfold descendFrom at hrun ⊢
    split_ifs at hrun ⊢ with hgo
    · cases hrun
    rw [get_bind] at hrun ⊢
    by_cases hx : id = x
    · -- the leaf ends the descent
      subst hx
      left
      cases hf : s.freshLeaves.lookup id with
      | some leaf =>
        rw [hf] at hrun
        cases hrun
        exact getLast?_concat
      | none =>
        rw [hf] at hrun
        obtain ⟨leaf, hpage⟩ := hleaf hf
        obtain ⟨n, w, hread, hrun⟩ := bind_eq_ok.mp hrun
        obtain ⟨rfl, -⟩ := (readNodeGuard_leaf hpage).sound _ _ hread
        cases hrun
        exact getLast?_concat
    · rw [h.fresh id hx, h.dirty id hx]
      cases hf : s.freshLeaves.lookup id with
      | some leaf =>
        rw [hf] at hrun
        cases hrun
        exact Or.inr rfl
      | none =>
        rw [hf] at hrun
        obtain ⟨n, w, hread, hrun⟩ := bind_eq_ok.mp hrun
        obtain ⟨rfl, hread'⟩ := readNodeGuard_clear hs h.pager hread
        dsimp only
        rw [bind_of_ok hread']
        cases n with
        | inl page =>
          cases hrun
          exact Or.inr rfl
        | inr node => exact ih hrun

/-! ## §2. The append -/

/-- A leaf cached by `touch_leaf` has a page unless it is fresh. -/
theorem Session.CachedAt.paged {fresh : Bool} {leaf : Leaf} (h : s.CachedAt id fresh leaf)
    (hpaged : s.DirtyPaged) (hf : s.freshLeaves.lookup id = none) :
    ∃ leaf, s.pager.page id = some (.leaf leaf) := by
  cases fresh with
  | true =>
    rw [show s.freshLeaves.lookup id = some leaf from h] at hf
    cases hf
  | false => exact hpaged id (AList.lookup_isSome.mp (by rw [h.2]; rfl))

/-- One record goes into an empty leaf, whatever its key. -/
theorem putAtPath_empty {c : Ctx PageId Bytes Stored 0 H} {held : List PageId} {value : LeafValue}
    (hs : Holds g s retired held (c.plug (.leaf id []))) (hclear : s.Clear)
    (hfits : singleRecordFitsEncoded k.length value.encodedSize s.pageSize = true) :
    ∃ s₁ s₂, putAtPath (c.pathIds.reverse ++ [id]) k value s = .ok false s₂
      ∧ Readable s₁ (.tree (c.plug (.leaf id []))) ∧ s₁.Clear ∧ s₁.SameBut id s₂
      ∧ (s₁.freshLeaves.lookup id = none → ∃ leaf, s₁.pager.page id = some (.leaf leaf)) := by
  have hends : Ends Session.Clear (touchLeaf id c.pathIds.reverse) s := touchLeaf_ends hs
  obtain ⟨⟨fresh, leaf⟩, s₁, htouch, hclear₁⟩ := hends hclear
  obtain ⟨h₁, hcached, hleaf, -⟩ := touchLeaf_spec hs htouch
  have hsize := pageSize_of_steps (@touchLeaf_steps false id _) htouch
  obtain ⟨leaf', hupsert, hroom⟩ : ∃ leaf', leaf.upsert k value = (leaf', none)
      ∧ leaf'.fits s₁.pageSize = true := by
    refine ⟨{ leaf with records := [(k, value)] }, ?_, ?_⟩
    · unfold Leaf.upsert
      rw [hleaf]
      rfl
    · rw [hsize]
      exact sliceFits_singleton hfits
  obtain ⟨s₂, hset⟩ : ∃ s₂, setCachedLeaf id fresh leaf' s₁ = .ok ⟨⟩ s₂ := ⟨_, rfl⟩
  refine ⟨s₁, s₂, ?_, h₁.readable, hclear₁, ?_, hcached.paged h₁.live.caches.paged⟩
  · unfold putAtPath
    rw [getLast?_concat]
    dsimp only
    rw [dropLast_concat, bind_of_ok htouch]
    dsimp only
    rw [hupsert]
    dsimp only
    rw [bind_of_ok hset, show ∀ undo, releaseOld undo none = pure () from fun _ => rfl, pure_bind,
      get_bind, if_pos]
    · rfl
    · rw [pageSize_of_steps (@setCachedLeaf_steps false id fresh leaf') hset]
      exact hroom
  · obtain rfl := modify_eq_ok.mp hset
    cases fresh
    · exact ⟨rfl, rfl, fun p hp => rfl, fun p hp => AList.lookup_insert_ne hp⟩
    · exact ⟨rfl, rfl, fun p hp => AList.lookup_insert_ne hp, fun p hp => rfl⟩

theorem Cut.contains {c : Ctx PageId Bytes Stored 0 H} {left right : List (Bytes × Stored)}
    (hcut : Cut c k left right) : LeafBounds.contains ⟨c.lower, c.upper⟩ k = true := by
  have hlower := c.before_lower
  have hupper := c.after_upper
  refine Bool.and_eq_true_iff.mpr ⟨?_, ?_⟩
  · cases hl : c.lower with
    | none => rfl
    | some a =>
      rw [hl] at hlower
      obtain ⟨init, hinit⟩ := hlower
      refine decide_eq_true (hcut.before (.sep a) (mem_append_left _ ?_))
      rw [hinit]
      exact mem_concat_self
  · cases hu : c.upper with
    | none => rfl
    | some a =>
      rw [hu] at hupper
      obtain ⟨rest, hrest⟩ := hupper
      refine decide_eq_true (hcut.after (.sep a) (mem_append_right _ ?_))
      rw [hrest]
      exact mem_cons_self

/-- A leaf is found under one path. -/
theorem Rightmost.path_unique {path : List PageId} {c c' : Ctx PageId Bytes Stored 0 H}
    {records records' : List (Bytes × Stored)} (hr : Rightmost t path c id records)
    (hnodup : t.ids.Nodup) (ht : t = c'.plug (.leaf id records')) :
    path = c'.pathIds.reverse ++ [id] := by
  have hleaves := Ctx.plug_leaves .right c' (.leaf id records')
  rw [← ht] at hleaves
  have hmem' : ⟨c'.pathIds.reverse ++ [], id, records'⟩ ∈ t.leaves := by
    rw [show t.leaves = _ from hleaves]
    exact mem_append_right _ (mem_append_left _ mem_cons_self)
  have hleaf := inj_on_of_nodup_map (hnodup.sublist t.leaves_ids_sublist)
    (mem_of_getLast? hr.leaves) hmem' rfl
  have hup : c.pathIds.reverse = c'.pathIds.reverse ++ [] := congrArg LeafAt.up hleaf
  rw [hr.path, hup, append_nil]

/-- **A first append into an emptied leaf returns, and its record is found only within
    the separators of the leaf.** -/
theorem treePutAppend_into_empty (hs : Carries g s retired (.tree t)) (hlast : s.LastIn (.tree t))
    (htrust : s.Trusts k) (hbound : s.appendBound = none)
    (hvalid : validateInsertRecordFits k v s = .ok () s) (hclear : s.Clear)
    (hnew : ∀ r ∈ recordsOf t.items, r.1 ≠ k) :
    ∃ s', treePutAppend k v s = .ok () s'
      ∧ ((∃ b, value? (rightmostBounds s.calm) = some b ∧ b.contains k = true)
        ∨ treeGet k s' = .ok none s') := by
  have hread := hs.readable
  obtain ⟨path, c, id, records, hr, heq⟩ := treePutAppend_eq_along hread hlast htrust
    (by rw [hbound]; nofun) hvalid hclear
  have hempty : records = [] := by
    rw [hr.bound hread hlast, Option.map_eq_none_iff] at hbound
    exact getLast?_eq_none_iff.mp hbound
  subst hempty
  have h₀ : Carries g (s.marked s.appendLastKey none) retired (.tree t) := hs.marked _ _
  have hsingle := fits_of_validate hvalid
  obtain ⟨lv, s₁, hvalue, hclear₁⟩ := leafValueFor_ends h₀.live.ledger hsingle hclear
  have hsize := leafValueFor_encodedSize hvalue
  obtain ⟨w, -, rfl, -, hl₁, ht₁⟩ := leafValueFor_spec h₀.live.ledger hvalue
  have h₁ : Holds g s₁ retired w.pages t := h₀.holds.touch ht₁ hl₁ (List.Subset.refl _)
  rw [hr.plug] at h₁
  have hfits : singleRecordFitsEncoded k.length w.leafValue.encodedSize s₁.pageSize = true := by
    rw [hsize, ht₁.pageSize]
    exact hsingle
  obtain ⟨s₂, s₃, hput, h₂, hclear₂, hsame, hpage⟩ := putAtPath_empty h₁ hclear₁ hfits
  refine ⟨s₃.marked (some k) (some path), ?_, ?_⟩
  · rw [heq]
    unfold appendAlong
    rw [bind_of_ok hvalue, hr.path, bind_of_ok hput]
    rfl
  rw [← hr.plug] at h₂
  -- where the descent for the key ends
  have hdescend := h₂.outline.descend_returns k
  obtain ⟨r, u, hrun, hu⟩ := hdescend.total hclear₂
  obtain ⟨hq, c', id', left, right, old, ht, hcut, hpath, hrecords⟩ := hdescend.sound r u hrun
  obtain rfl := hq.eq_of_clear hclear₂ hu
  have hsame' : u.SameBut id (s₃.marked (some k) (some path)) :=
    ⟨hsame.pager, hsame.root, hsame.fresh, hsame.dirty⟩
  unfold descend at hrun
  rw [get_bind] at hrun
  rcases descendFrom_congr hsame' hclear₂ hpage _ hrun with hend | hrun'
  · left
    rw [hpath, getLast?_concat] at hend
    cases hend
    exact ⟨_, hr.bounds hread ht (hr.path_unique hread.nodup ht), hcut.contains⟩
  · right
    have hold : old = none := by
      refine Option.eq_none_iff_forall_ne_some.mpr fun w hw => ?_
      refine hnew (k, w) ?_ rfl
      rw [ht, Cut.records_eq, hw]
      exact mem_append_left _ mem_concat_self
    have hroot : ¬ (s₃.marked (some k) (some path)).rootPageId = 0 := by
      rw [hsame'.root]
      exact h₂.root_ne_zero
    unfold treeGet descend
    rw [get_bind, if_neg hroot, bind_assoc, get_bind, hsame'.pager, hsame'.root, bind_of_ok hrun']
    dsimp only
    rw [Leaf.get_around hcut.around hrecords, hold]
    rfl

end Pagedb
