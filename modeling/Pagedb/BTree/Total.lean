/-
  Pagedb.BTree.Total — what cannot fail but at an await.

  A session whose books are right never trips an assertion of the allocator, and
  finds every page it goes to.  So a value of an accepted record can be stored, and
  along a valid path a delete returns, unless an await fails.
-/
import Pagedb.BTree.Insert

namespace Pagedb

open Lib List

variable {source owned : List PageId} {s : Session}

/-! ## §1. The allocator -/

theorem assertUsable_ends {id : PageId} (h : 4 ≤ id) : Ends Session.Clear (assertUsable id) s := by
  unfold assertUsable
  rw [if_neg (show ¬ id < FIRST_DATA_PAGE from Nat.not_lt.mpr h)]
  exact Ends.pure

theorem Ledger.usable (hl : Ledger source s owned) {p : PageId}
    (hp : p ∈ s.freed ++ (s.freedReusable ++ s.cache)) : 4 ≤ p := by
  have hin := hl.law.mem_iff.mp (mem_append_right owned hp)
  exact (mem_range'_1.mp hin).1

theorem allocatePage_ends (hl : Ledger source s owned) : Ends Session.Clear allocatePage s := by
  -- every branch hands out a usable id and leaves the pager alone
  have hend : ∀ (id : PageId) (t : Session), 4 ≤ id → t.pager = s.pager → Ends Session.Clear (do
        assertUsable id
        set t
        pure id : TreeM PageId) s := by
    intro id t hid hpager
    refine (assertUsable_ends hid).bind fun _ u hu => ?_
    obtain rfl := assertUsable_eq_ok hu
    refine Ends.bind (Ends.set fun hs => ?_) fun _ _ _ => Ends.pure
    unfold Session.Clear
    rw [hpager]
    exact hs
  unfold allocatePage
  refine Ends.get ?_
  cases hr : s.freedReusable.getLast? with
  | some id =>
    refine hend id _ (hl.usable ?_) rfl
    exact mem_append_right _ (mem_append_left _ (mem_of_getLast? hr))
  | none =>
    cases ht : s.reuseThreshold with
    | none => exact hend _ _ hl.four rfl
    | some threshold =>
      cases hc : s.cache.getLast? with
      | none => exact hend _ _ hl.four rfl
      | some id =>
        refine hend id _ (hl.usable ?_) rfl
        exact mem_append_right _ (mem_append_right _ (mem_of_getLast? hc))

theorem freePage_ends {id : PageId} (h : 4 ≤ id) : Ends Session.Clear (freePage id) s := by
  unfold freePage
  refine (assertUsable_ends h).bind fun _ t ht => ?_
  obtain rfl := assertUsable_eq_ok ht
  refine Ends.modify fun hs => ?_
  split_ifs with hreuse
  · exact hs
  · exact hs

theorem freePages_ends (ids : List PageId) :
    ∀ {s : Session}, (∀ p ∈ ids, 4 ≤ p) → Ends Session.Clear (freePages ids) s := by
  induction ids with
  | nil =>
    intro s _
    exact Ends.pure
  | cons id ids ih =>
    intro s hids
    exact (freePage_ends (hids id mem_cons_self)).bind fun _ _ _ =>
      ih fun p hp => hids p (mem_cons_of_mem _ hp)

theorem writePage_ends {id : PageId} {page : Page} : Ends Session.Clear (writePage id page) s := by
  unfold writePage
  refine (await_returns s).ends.bind fun _ t _ => ?_
  exact (Ends.modify fun hs => hs).bind fun _ u _ => (await_returns u).ends

theorem writeLeaf_ends {id : PageId} {leaf : Leaf} (h : leaf.fits s.pageSize = true) :
    Ends Session.Clear (writeLeaf id leaf) s := by
  unfold writeLeaf
  refine Ends.get ?_
  rw [if_pos h]
  exact writePage_ends

theorem writeInternal_ends {id : PageId} {node : Internal} (h : node.fits s.pageSize = true) :
    Ends Session.Clear (writeInternal id node) s := by
  unfold writeInternal
  refine Ends.get ?_
  rw [if_pos h]
  exact writePage_ends

/-! ## §2. Overflow chains -/

theorem nextChainPage_ends {more : Bool} (hl : Ledger source s owned) :
    Ends Session.Clear (nextChainPage more) s := by
  unfold nextChainPage
  cases more with
  | false => exact Ends.pure
  | true => exact allocatePage_ends hl

/-- Every turn but the last stores at least a byte. -/
theorem writeChainFrom_ends (turns : Nat) :
    ∀ {pageId : PageId} {value : Bytes} {isRoot : Bool} {owned : List PageId} {s : Session},
      Ledger source s (pageId :: owned) → 0 < overflowRootCapacity s.pageSize →
      value.length < turns → Ends Session.Clear (writeChainFrom turns pageId value isRoot) s := by
  induction turns with
  | zero =>
    intro pageId value isRoot owned s _ _ hturns
    exact absurd hturns (Nat.not_lt_zero _)
  | succ turns ih =>
    intro pageId value isRoot owned s hl hcap hturns
    unfold writeChainFrom
    refine Ends.get ?_
    dsimp only
    have hpos : 0 < (if isRoot then overflowRootCapacity s.pageSize
        else overflowPageCapacity s.pageSize) := by
      unfold overflowRootCapacity OVERFLOW_ROOT_HEADER_LEN at hcap ⊢
      unfold overflowPageCapacity
      split <;> omega
    generalize (if isRoot then overflowRootCapacity s.pageSize
      else overflowPageCapacity s.pageSize) = cap at hpos ⊢
    refine (nextChainPage_ends hl).bind fun next t hnext => ?_
    obtain ⟨htouch, hcases⟩ := nextChainPage_spec hl hnext
    refine writePage_ends.bind fun _ w hwrite => ?_
    rcases hcases with ⟨-, rfl, -⟩ | ⟨hmore, hne, hl'⟩
    · rw [if_pos rfl]
      exact Ends.pure
    · rw [if_neg hne]
      have hsize := (htouch.trans (writePage_touches hwrite)).pageSize
      refine ih (writePage_ledger hl' hwrite) (hsize ▸ hcap) ?_
      have hlong : cap < value.length := of_decide_eq_true hmore
      rw [length_drop]
      omega

theorem writeChain_ends {value : Bytes} (hl : Ledger source s owned)
    (hcap : 0 < overflowRootCapacity s.pageSize) : Ends Session.Clear (writeChain value) s := by
  unfold writeChain
  refine (allocatePage_ends hl).bind fun root t halloc => ?_
  obtain ⟨hl', htouch⟩ := hl.allocate halloc
  exact (writeChainFrom_ends _ hl' (htouch.pageSize ▸ hcap) (Nat.lt_succ_self _)).bind
    fun _ _ _ => Ends.pure

/-- A value of an accepted record can be stored. -/
theorem leafValueFor_ends {key value : Bytes} (hl : Ledger source s owned)
    (hfits : singleRecordFitsEncoded key.length
      (storedLeafValueEncodedSize value.length s.pageSize) s.pageSize = true) :
    Ends Session.Clear (leafValueFor value) s := by
  unfold leafValueFor
  refine Ends.get ?_
  split_ifs with hbig
  · -- the record's own size leaves room for more than a chain page's header
    have hcap : 0 < overflowRootCapacity s.pageSize := by
      unfold singleRecordFitsEncoded storedLeafValueEncodedSize at hfits
      rw [if_pos hbig] at hfits
      have hsize := (Bool.and_eq_true_iff.mp hfits).2
      have hsize := of_decide_eq_true hsize
      unfold HEADER_LEN OVERFLOW_REF_ENCODED_SIZE bodyCapacity ENVELOPE_OVERHEAD at hsize
      unfold overflowRootCapacity OVERFLOW_ROOT_HEADER_LEN OVERFLOW_HEADER_LEN ENVELOPE_OVERHEAD
      omega
    exact (writeChain_ends hl hcap).bind fun _ _ _ => Ends.pure
  · exact Ends.pure

theorem releaseOld_ends {undo : TreeM Unit} {v : Option Stored} (hheld : ∀ w ∈ v, w.Held s.pager)
    (hl : Ledger source s ((v.elim [] Stored.pages) ++ owned)) :
    Ends Session.Clear (releaseOld undo (v.map Stored.leafValue)) s := by
  cases v with
  | none => exact Ends.pure
  | some v =>
    have hheld := hheld v rfl
    obtain ⟨bytes, pages⟩ := v
    cases pages with
    | nil => exact Ends.pure
    | cons root pages =>
      have hl : Ledger source s ((root :: pages) ++ owned) := hl
      refine Ends.bind (allocatePage_ends hl) fun cow t halloc => ?_
      obtain ⟨hlt, htouch⟩ := hl.allocate halloc
      have hzero : 0 ∉ pages := fun h0 =>
        hl.zero_notMem (mem_append_left _ (mem_cons_of_mem _ h0))
      have hfreed := release_returns (htouch.held hheld fun p _ => not_mem_nil)
        hl.nodup.of_append_left hzero cow
      refine hfreed.ends.tryCatch.bind fun result w hcatch => ?_
      have hfour : 4 ≤ cow := (hlt.bounds mem_cons_self).1
      have hpages : ∀ p ∈ root :: pages, 4 ≤ p := fun p hp =>
        (hl.bounds (mem_append_left _ hp)).1
      obtain ⟨rfl, -⟩ := hfreed.sound _ _ (releaseGuarded_eq_ok hcatch)
      exact (freePages_ends _ hpages).bind fun _ _ _ => freePage_ends hfour

/-! ## §3. Deletes -/

variable {g : Surroundings} {retired held : List PageId} {H : Nat} {c : Ctx PageId Bytes Stored 0 H}
  {id : PageId} {records : List (Bytes × Stored)}

theorem cachedLeaf_ends (fresh : Bool) (leaf : Leaf)
    (h : (if fresh then s.freshLeaves.lookup id else s.dirtyLeaves.lookup id) = some leaf) :
    Ends Session.Clear (cachedLeaf id fresh) s := by
  unfold cachedLeaf
  refine Ends.get ?_
  rw [h]
  exact Ends.pure

/-- The leaf at the end of a path can be brought into a cache. -/
theorem touchLeaf_ends {ancestors : List PageId}
    (hs : Holds g s retired held (c.plug (.leaf id records))) :
    Ends Session.Clear (touchLeaf id ancestors) s := by
  unfold touchLeaf
  refine Ends.get ?_
  cases hf : s.freshLeaves.lookup id with
  | some leaf =>
    exact (cachedLeaf_ends true leaf hf).bind fun _ _ _ => Ends.pure
  | none =>
    obtain ⟨page, hpage, -⟩ := Session.page_of_look_leaf hs.live.caches.paged hf hs.look_leaf
    show Ends Session.Clear (do
      ensureLeafDirty id ancestors
      let leaf ← cachedLeaf id false
      pure (false, leaf) : TreeM (Bool × Leaf)) s
    unfold ensureLeafDirty
    rw [bind_assoc]
    refine Ends.get ?_
    cases hd : s.dirtyLeaves.lookup id with
    | some leaf =>
      exact Ends.pure.bind fun _ t ht => by
        obtain ⟨-, rfl⟩ := pure_eq_ok.mp ht
        exact (cachedLeaf_ends false leaf hd).bind fun _ _ _ => Ends.pure
    | none =>
      refine Ends.bind ?_ fun _ t ht => ?_
      · exact (decodeLeaf_returns hpage).ends.bind fun _ _ _ => Ends.modify fun hs => hs
      · obtain ⟨leaf, u, -, hmod⟩ := bind_eq_ok.mp ht
        obtain rfl := modify_eq_ok.mp hmod
        refine (cachedLeaf_ends false leaf ?_).bind fun _ _ _ => Ends.pure
        exact AList.lookup_insert _

/-- **A delete along a valid path returns**, unless an await fails. -/
theorem deleteAtPath_ends {k : Bytes} {left right : List (Bytes × Stored)} {old : Option Stored}
    (hs : Holds g s retired [] (c.plug (.leaf id (around left k old right))))
    (hcut : Cut c k left right) :
    Ends Session.Clear (deleteAtPath (c.pathIds.reverse ++ [id]) k) s := by
  unfold deleteAtPath
  rw [getLast?_concat]
  dsimp only
  rw [dropLast_concat]
  refine (touchLeaf_ends hs).bind ?_
  rintro ⟨fresh, leaf⟩ s₁ htouch
  obtain ⟨h₁, hcached, hleaf, -⟩ := touchLeaf_spec hs htouch
  obtain ⟨hnew, hold⟩ := Leaf.remove_around hcut.around hleaf
  dsimp only
  generalize leaf.remove k = removed at hnew hold
  obtain ⟨leaf', old'⟩ := removed
  dsimp only at hnew hold
  subst hold
  refine Ends.bind (Ends.modify fun hclear => ?_) fun _ s₂ hset => ?_
  · cases fresh <;> exact hclear
  · obtain ⟨h₂, -, -, hold⟩ := h₁.exchange none hcut hcached (nofun) hnew hset
    have hl₂ := h₂.live.ledger
    rw [append_assoc] at hl₂
    exact (releaseOld_ends hold hl₂).bind fun _ _ _ => Ends.pure

end Pagedb
