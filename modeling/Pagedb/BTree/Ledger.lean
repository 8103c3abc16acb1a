/-
  Pagedb.BTree.Ledger — no page is lost and no page has two owners.

  A session hands out page ids from its own freed pages, from the shared cache
  of free pages, and from the end of the file.  The ledger accounts for every
  id below the end of the file exactly once: it is owned by someone, freed, or
  still in the cache.

    * `Ledger.allocate` — an allocated page had no owner before;
    * `Ledger.free`     — a freed page leaves its owner.
-/
import Pagedb.BTree.View

namespace Pagedb

open Lib List

/-! ## §1. The ledger -/

/-- Every page id below the end of the file is owned, freed or cached, once;
    `source` is what the cache held before anything was drawn from it. -/
structure Ledger (source : List PageId) (s : Session) (owned : List PageId) : Prop where
  four : 4 ≤ s.nextPageId
  law : (owned ++ (s.freed ++ (s.freedReusable ++ s.cache))).Perm (List.range' 4 (s.nextPageId - 4))
  drawn : (s.consumed ++ s.cache).Perm source

namespace Ledger

variable {source owned owned' : List PageId} {s : Session}

variable (h : Ledger source s owned)

include h

theorem nodup_all :
    (owned ++ (s.freed ++ (s.freedReusable ++ s.cache))).Nodup :=
  h.law.nodup_iff.mpr (nodup_range' 1)

theorem nodup : owned.Nodup := h.nodup_all.of_append_left

theorem bounds {p : PageId} (hp : p ∈ owned) :
    4 ≤ p ∧ p < s.nextPageId := by
  have := h.law.mem_iff.mp (mem_append_left _ hp)
  rw [mem_range'_1] at this
  have := h.four
  grind

theorem zero_notMem : 0 ∉ owned := by
  intro h0
  exact absurd (h.bounds h0).1 (by decide)

theorem perm (hp : owned'.Perm owned) : Ledger source s owned' where
  four := h.four
  law := (hp.append_right _).trans h.law
  drawn := h.drawn

end Ledger

/-! ## §2. What a program leaves alone -/

/-- From `s` to `s'` only the allocator and the pager moved, and the pager only
    at `ids`. -/
def Session.Touches (ids : List PageId) (s s' : Session) : Prop :=
  ∃ n f r c d pager, s' = { s with
      nextPageId := n, freed := f, freedReusable := r, cache := c, consumed := d, pager := pager }
    ∧ ∀ p, p ∉ ids → pager.page p = s.pager.page p

namespace Session.Touches

variable {ids ids' : List PageId} {s t u : Session}

theorem refl (s : Session) : s.Touches [] s := ⟨_, _, _, _, _, _, rfl, fun _ _ => rfl⟩

variable (h : s.Touches ids t)

include h

theorem trans (h' : t.Touches ids' u) : s.Touches (ids ++ ids') u := by
  obtain ⟨n, f, r, c, d, pager, rfl, hp⟩ := h
  obtain ⟨n', f', r', c', d', pager', rfl, hp'⟩ := h'
  refine ⟨n', f', r', c', d', pager', rfl, fun p hmem => ?_⟩
  rw [hp' p fun h => hmem (mem_append_right _ h)]
  exact hp p fun h => hmem (mem_append_left _ h)

theorem mono (hsub : ids ⊆ ids') : s.Touches ids' t := by
  obtain ⟨n, f, r, c, d, pager, rfl, hp⟩ := h
  exact ⟨n, f, r, c, d, pager, rfl, fun p hmem => hp p fun h => hmem (hsub h)⟩

omit h in
theorem of_quiet (h : s.Quiet t) : s.Touches [] t := by
  obtain ⟨faults, rfl⟩ := h
  exact ⟨_, _, _, _, _, _, rfl, fun _ _ => rfl⟩

theorem page {p : PageId} (hp : p ∉ ids) :
    t.pager.page p = s.pager.page p := by
  obtain ⟨n, f, r, c, d, pager, rfl, hpage⟩ := h
  exact hpage p hp

theorem pageSize : t.pageSize = s.pageSize := by
  obtain ⟨n, f, r, c, d, pager, rfl, -⟩ := h
  rfl

theorem root : t.rootPageId = s.rootPageId := by
  obtain ⟨n, f, r, c, d, pager, rfl, -⟩ := h
  rfl

theorem look {p : PageId} (hp : p ∉ ids) : t.look p = s.look p := by
  obtain ⟨n, f, r, c, d, pager, rfl, hpage⟩ := h
  unfold Session.look
  rw [hpage p hp]

theorem shows {p : PageId} (hp : p ∉ ids)
    {c : Cell PageId Bytes Stored} (hc : s.Shows p c) : t.Shows p c := by
  cases c <;> exact (h.look hp).trans hc

theorem held {v : Stored} (hv : v.Held s.pager)
    (hdisj : ∀ p ∈ v.pages, p ∉ ids) : v.Held t.pager :=
  hv.congr fun p hp => h.page (hdisj p hp)

end Session.Touches

/-! ## §3. The allocator -/

variable {id : PageId} {s s' : Session} {u : Unit} {source owned : List PageId} {page : Page}

theorem assertUsable_eq_ok (h : assertUsable id s = .ok u s') : s = s' := by
  unfold assertUsable at h
  split_ifs at h with hid
  · rw [throw_eq_ok] at h
    exact h.elim
  · rw [pure_eq_ok] at h
    exact h.2

theorem assertThenSet_eq_ok {p : PageId} {t : Session}
    (hrun : (do assertUsable p; set t; pure p : TreeM PageId) s = .ok id s') : p = id ∧ t = s' := by
  obtain ⟨_, _, hassert, hrun⟩ := bind_eq_ok.mp hrun
  rw [set_bind] at hrun
  exact pure_eq_ok.mp hrun

theorem eq_dropLast_append {l : List PageId} (h : l.getLast? = some id) :
    l = l.dropLast ++ [id] := by
  obtain ⟨init, rfl⟩ := getLast?_eq_some_iff.mp h
  rw [dropLast_concat]

/-- **An allocated page had no owner.** -/
theorem Ledger.allocate (h : Ledger source s owned) (hrun : allocatePage s = .ok id s') :
    Ledger source s' (id :: owned) ∧ s.Touches [] s' := by
  unfold allocatePage at hrun
  rw [get_bind] at hrun
  cases hr : s.freedReusable.getLast? with
  | some r =>
    rw [hr] at hrun
    obtain ⟨rfl, rfl⟩ := assertThenSet_eq_ok hrun
    refine ⟨⟨h.four, ?_, h.drawn⟩, _, _, _, _, _, _, rfl, fun _ _ => rfl⟩
    have hlaw := h.law
    rw [eq_dropLast_append hr] at hlaw
    refine List.Perm.trans ?_ hlaw
    show (r :: owned ++ (s.freed ++ (s.freedReusable.dropLast ++ s.cache))).Perm _
    grind
  | none =>
    rw [hr] at hrun
    have hnil : s.freedReusable = [] := getLast?_eq_none_iff.mp hr
    -- the end of the file is the fallback of both remaining branches
    have hbump : ∀ {t : Session}, t = { s with nextPageId := s.nextPageId + 1 } →
        Ledger source t (s.nextPageId :: owned) ∧ s.Touches [] t := by
      rintro t rfl
      refine ⟨⟨Nat.le_succ_of_le h.four, ?_, h.drawn⟩, _, _, _, _, _, _, rfl, fun _ _ => rfl⟩
      have hfour := h.four
      show (s.nextPageId :: owned ++ (s.freed ++ (s.freedReusable ++ s.cache))).Perm
        (List.range' 4 (s.nextPageId + 1 - 4))
      rw [Nat.succ_sub hfour, range'_concat, Nat.one_mul, Nat.add_sub_cancel' hfour]
      exact (h.law.cons _).trans (perm_append_singleton _ _).symm
    cases ht : s.reuseThreshold with
    | none =>
      rw [ht] at hrun
      obtain ⟨rfl, rfl⟩ := assertThenSet_eq_ok hrun
      exact hbump (by rw [ht])
    | some threshold =>
      rw [ht] at hrun
      cases hc : s.cache.getLast? with
      | none =>
        rw [hc] at hrun
        obtain ⟨rfl, rfl⟩ := assertThenSet_eq_ok hrun
        exact hbump (by rw [ht])
      | some c =>
        rw [hc] at hrun
        obtain ⟨rfl, rfl⟩ := assertThenSet_eq_ok hrun
        have hcache := eq_dropLast_append hc
        have hlaw := h.law
        have hdrawn := h.drawn
        rw [hcache] at hlaw hdrawn
        refine ⟨⟨h.four, ?_, ?_⟩, _, _, _, _, _, _, rfl, fun _ _ => rfl⟩
        · refine List.Perm.trans ?_ hlaw
          show (c :: owned ++ (s.freed ++ (s.freedReusable ++ s.cache.dropLast))).Perm _
          grind
        · show (s.consumed ++ [c] ++ s.cache.dropLast).Perm source
          grind

/-- A freed page leaves its owner. -/
theorem Ledger.free (h : Ledger source s (id :: owned)) (hrun : freePage id s = .ok u s') :
    Ledger source s' owned ∧ s.Touches [] s' := by
  unfold freePage at hrun
  obtain ⟨_, _, hassert, hrun⟩ := bind_eq_ok.mp hrun
  obtain rfl := assertUsable_eq_ok hassert
  have hs' := modify_eq_ok.mp hrun
  have hlaw := h.law
  split_ifs at hs' with hreuse
  · subst hs'
    refine ⟨⟨h.four, ?_, h.drawn⟩, _, _, _, _, _, _, rfl, fun _ _ => rfl⟩
    show (owned ++ (s.freed ++ (s.freedReusable ++ [id] ++ s.cache))).Perm _
    grind
  · subst hs'
    refine ⟨⟨h.four, ?_, h.drawn⟩, _, _, _, _, _, _, rfl, fun _ _ => rfl⟩
    show (owned ++ (s.freed ++ [id] ++ (s.freedReusable ++ s.cache))).Perm _
    grind

theorem Ledger.freeAll (ids : List PageId) :
    ∀ {s s' : Session} {u : Unit}, Ledger source s (ids ++ owned) →
      freePages ids s = .ok u s' → Ledger source s' owned ∧ s.Touches [] s' := by
  induction ids with
  | nil =>
    intro s s' u h hrun
    obtain ⟨-, rfl⟩ := pure_eq_ok.mp hrun
    exact ⟨h, Session.Touches.refl s⟩
  | cons id ids ih =>
    intro s s' u h hrun
    obtain ⟨_, t, hfree, hrun⟩ := bind_eq_ok.mp hrun
    obtain ⟨ht, htouch⟩ := h.free hfree
    obtain ⟨hs', htouch'⟩ := ih ht hrun
    exact ⟨hs', htouch.trans htouch'⟩

/-! ## §4. Writes -/

/-- A write buffers the page and moves nothing else. -/
theorem writePage_eq_ok (h : writePage id page s = .ok u s') :
    ∃ pager, s' = { s with pager := pager }
      ∧ pager.page id = some page ∧ ∀ p, p ≠ id → pager.page p = s.pager.page p := by
  unfold writePage at h
  obtain ⟨_, t, hawait, h⟩ := bind_eq_ok.mp h
  obtain ⟨faults, rfl⟩ := (await_returns s).sound _ _ hawait
  obtain ⟨_, t, hmod, h⟩ := bind_eq_ok.mp h
  obtain rfl := modify_eq_ok.mp hmod
  obtain ⟨faults', rfl⟩ := (await_returns _).sound _ _ h
  refine ⟨_, rfl, Pager.page_write_self _ _ _, fun p hp => ?_⟩
  exact Pager.page_write_ne _ _ hp

theorem writePage_touches (h : writePage id page s = .ok u s') : s.Touches [id] s' := by
  obtain ⟨pager, rfl, -, hne⟩ := writePage_eq_ok h
  exact ⟨_, _, _, _, _, _, rfl, fun p hp => hne p fun heq => hp (heq ▸ mem_singleton_self _)⟩

theorem writePage_ledger (hl : Ledger source s owned) (h : writePage id page s = .ok u s') :
    Ledger source s' owned := by
  obtain ⟨pager, rfl, -, -⟩ := writePage_eq_ok h
  exact ⟨hl.four, hl.law, hl.drawn⟩

theorem Ledger.of_quiet (hl : Ledger source s owned) (h : s.Quiet s') : Ledger source s' owned := by
  obtain ⟨faults, rfl⟩ := h
  exact ⟨hl.four, hl.law, hl.drawn⟩

theorem writeLeaf_eq_ok {leaf : Leaf} (h : writeLeaf id leaf s = .ok u s') :
    writePage id (.leaf leaf) s = .ok u s' := by
  unfold writeLeaf at h
  rw [get_bind] at h
  by_cases hfits : leaf.fits s.pageSize = true
  · rwa [if_pos hfits] at h
  · rw [if_neg hfits, throw_eq_ok] at h
    exact h.elim

theorem writeInternal_eq_ok {node : Internal} (h : writeInternal id node s = .ok u s') :
    writePage id (.internal node) s = .ok u s' := by
  unfold writeInternal at h
  rw [get_bind] at h
  by_cases hfits : node.fits s.pageSize = true
  · rwa [if_pos hfits] at h
  · rw [if_neg hfits, throw_eq_ok] at h
    exact h.elim

end Pagedb
