/-
  Pagedb.BTree.Sweep — a scan sees every record from where it starts.

  The scans differ only in what they do with a record.  Given what a visit does,
  as a pure function, the whole loop is `Lib.sweep` over the records from the
  first leaf on: `loop_decides`.  `Readable.stand` and `Readable.standLast` say
  where a scan starts and what lies behind it.
-/
import Pagedb.Lib.Paging
import Pagedb.BTree.Walk

namespace Pagedb

open Lib List

variable {h : Nat} {t : PageTree h} {s s' : Session} {i : Image} {d : Side}
  {path : List PageId} {rest : List (LeafAt PageId Bytes Stored)}

/-! ## §1. Reading a leaf -/

theorem Readable.quiet (hr : Readable s i) (hq : s.Quiet s') : Readable s' i := by
  have hrep : ∀ e ∈ i.cells, s'.Shows e.1 e.2 := fun e he => hq.shows (hr.rep e he)
  obtain ⟨faults, rfl⟩ := hq
  refine ⟨hrep, hr.ordered, hr.nodup, hr.zero, hr.paged, fun r hmem => ?_, hr.root⟩
  obtain ⟨hheld, hpages⟩ := hr.values r hmem
  exact ⟨hheld.congr fun _ _ => rfl, hpages⟩

/-- The leaf a lookup sees at an id, sibling link and all. -/
def Session.leafAt (s : Session) (id : PageId) : Option Leaf :=
  match s.freshLeaves.lookup id with
  | some leaf => some leaf
  | none =>
    match s.dirtyLeaves.lookup id with
    | some leaf => some leaf
    | none =>
      match s.pager.page id with
      | some (.leaf leaf) => some leaf
      | _ => none

theorem Session.Quiet.leafAt (hq : s.Quiet s') (id : PageId) : s'.leafAt id = s.leafAt id := by
  obtain ⟨faults, rfl⟩ := hq
  rfl

theorem Session.Touches.leafAt {ws : List PageId} (h : s.Touches ws s') {p : PageId} (hp : p ∉ ws) :
    s'.leafAt p = s.leafAt p := by
  obtain ⟨n, f, r, c, d, pager, rfl, hpage⟩ := h
  unfold Session.leafAt
  rw [hpage p hp]

theorem readLeaf_returns {id : PageId} {records : Records} (hlook : s.look id = some (.inl records)) :
    Returns Session.Clear (readLeaf id) s fun leaf s' =>
      s.Quiet s' ∧ s.leafAt id = some leaf ∧ leaf.records = records := by
  unfold readLeaf
  refine Returns.get ?_
  unfold Session.leafAt
  cases hf : s.freshLeaves.lookup id with
  | some leaf =>
    rw [Session.look_fresh hf] at hlook
    injection hlook with hlook
    injection hlook with hlook
    exact Returns.pure ⟨Session.Quiet.refl s, rfl, hlook⟩
  | none =>
    cases hd : s.dirtyLeaves.lookup id with
    | some leaf =>
      rw [Session.look_dirty hf hd] at hlook
      injection hlook with hlook
      injection hlook with hlook
      exact Returns.pure ⟨Session.Quiet.refl s, rfl, hlook⟩
    | none =>
      rw [Session.look_page hf hd] at hlook
      cases hp : s.pager.page id with
      | none => rw [hp] at hlook; cases hlook
      | some page =>
        rw [hp] at hlook
        cases page with
        | leaf leaf =>
          injection hlook with hlook
          injection hlook with hlook
          refine (decodeLeaf_returns hp).weaken ?_
          rintro l u ⟨rfl, hq⟩
          exact ⟨hq, rfl, hlook⟩
        | _ => cases hlook

/-! ## §2. Where a walk stands -/

theorem Stands.path_eq {l : LeafAt PageId Bytes Stored} {ls : List (LeafAt PageId Bytes Stored)}
    (hs : Stands d t path (l :: ls)) : path = l.path := by
  obtain ⟨c, id, records, rfl, rfl, hrest⟩ := hs
  obtain ⟨rfl, -⟩ := List.cons.inj hrest
  rfl

variable (hs : Stands d t path rest)

include hs

theorem Stands.leaves : ∃ behind, d.order t.leaves = behind ++ rest := by
  obtain ⟨c, id, records, rfl, rfl, rfl⟩ := hs
  refine ⟨(c.ahead d.flip).reverse, ?_⟩
  have hone : d.order (Node.leaf id records : PageTree 0).leaves = [⟨[], id, records⟩] :=
    Side.order_singleton d _
  rw [Ctx.plug_leaves, hone]
  show _ ++ ([⟨c.pathIds.reverse ++ [], id, records⟩] ++ c.ahead d) = _
  rw [append_nil]
  rfl

theorem Stands.mem {l : LeafAt PageId Bytes Stored} (hl : l ∈ rest) :
    l ∈ t.leaves := by
  obtain ⟨behind, heq⟩ := hs.leaves
  have hin : l ∈ d.order t.leaves := by
    rw [heq]
    exact mem_append_right _ hl
  exact Side.mem_order.mp hin

theorem Stands.ids_nodup (hnodup : t.ids.Nodup) :
    (rest.map LeafAt.id).Nodup := by
  obtain ⟨behind, heq⟩ := hs.leaves
  have hleaves : (t.leaves.map LeafAt.id).Nodup := hnodup.sublist t.leaves_ids_sublist
  have hperm := ((d.order_perm t.leaves).map LeafAt.id).nodup_iff.mpr hleaves
  rw [heq, map_append] at hperm
  exact hperm.of_append_right

theorem Stands.length_le : rest.length ≤ t.leaves.length := by
  obtain ⟨behind, heq⟩ := hs.leaves
  rw [← (d.order_perm t.leaves).length_eq, heq, length_append]
  omega

omit hs

/-- A scan's bound is past the number of leaves: each is fresh or has a page. -/
theorem Readable.leaves_lt (hr : Readable s (.tree t)) : t.leaves.length < s.leafBound := by
  have hnodup : (t.leaves.map LeafAt.id).Nodup := hr.nodup.sublist t.leaves_ids_sublist
  let fresh : PageId → Bool := fun p => (s.freshLeaves.lookup p).isSome
  have hfresh : ((t.leaves.map LeafAt.id).filter fresh).length ≤ s.freshLeaves.entries.length := by
    have hsub : (t.leaves.map LeafAt.id).filter fresh ⊆ s.freshLeaves.keys := by
      intro p hp
      have hp := (mem_filter.mp hp).2
      exact AList.mem_keys.mp (AList.lookup_isSome.mp hp)
    have hle := (subperm_of_subset (hnodup.filter _) hsub).length_le
    rwa [← Table.toList_map_fst, length_map, Table.toList, length_map] at hle
  have hpaged : ((t.leaves.map LeafAt.id).filter fun p => !fresh p).length ≤ s.pager.pageCount := by
    refine Pager.length_le_pageCount (hnodup.filter _) fun p hp => ?_
    obtain ⟨hp, hnot⟩ := mem_filter.mp hp
    obtain ⟨l, hl, rfl⟩ := mem_map.mp hp
    have hf : s.freshLeaves.lookup l.id = none := by
      have hnot : (!(s.freshLeaves.lookup l.id).isSome) = true := hnot
      simpa using hnot
    obtain ⟨page, hpage, -⟩ := Session.page_of_look_leaf hr.paged hf (hr.rep _ (Node.leaf_cell_mem hl))
    rw [hpage]
    rfl
  have hsplit := length_eq_length_filter_add (l := t.leaves.map LeafAt.id) fresh
  rw [length_map] at hsplit
  unfold Session.leafBound
  omega

/-- The records from where the walk stands are the last ones of the tree, in the
    order of the walk; `behind` are the records it does not meet. -/
structure Splits (d : Side) (t : PageTree h) (rest : List (LeafAt PageId Bytes Stored))
    (behind : List (Bytes × Stored)) : Prop where
  records : d.order (recordsOf t.items) = behind ++ rest.flatMap fun l => d.order l.records

/-- What lies behind a walk is on the other side of its first leaf. -/
theorem splits_plug (d : Side) (c : Ctx PageId Bytes Stored 0 h) (id : PageId)
    (records : List (Bytes × Stored)) :
    Splits d (c.plug (.leaf id records)) (⟨c.pathIds.reverse, id, records⟩ :: c.ahead d)
      (d.order (recordsOf (match d with | .left => c.after | .right => c.before))) := by
  have hbehind : ((c.ahead d.flip).reverse.flatMap fun l => d.order l.records)
      = d.order (recordsOf (match d with | .left => c.after | .right => c.before)) := by
    cases d with
    | right => exact (Ctx.recordsOf_before c).symm
    | left =>
      show _ = (recordsOf c.after).reverse
      rw [Ctx.recordsOf_after, reverse_flatMap]
      rfl
  have hone : d.order (Node.leaf id records : PageTree 0).leaves = [⟨[], id, records⟩] :=
    Side.order_singleton d _
  constructor
  rw [Node.recordsOf_items, Side.order_flatMap, Ctx.plug_leaves, flatMap_append, hbehind, hone]
  show _ ++ ([(⟨c.pathIds.reverse ++ [], id, records⟩ : LeafAt PageId Bytes Stored)]
    ++ c.ahead d).flatMap _ = _
  rw [append_nil]
  rfl

/-- **Where a scan for a key starts.**  Behind it are keys on the far side of the
    key only. -/
theorem Readable.stand (hr : Readable s (.tree t)) (d : Side) (k : Bytes) :
    Returns Session.Clear (pathToLeafForKey k) s fun path s' => s.Quiet s' ∧
      ∃ rest behind, Stands d t path rest ∧ Splits d t rest behind
        ∧ (∀ x ∈ behind, match d with | .left => k < x.1 | .right => x.1 < k)
        ∧ (d = .right → rest = t.leavesFrom k) := by
  refine (hr.outline.path_returns k).weaken ?_
  rintro path u ⟨hq, c, id, left, right, old, rfl, hcut, hpath⟩
  refine ⟨hq, _, _, ⟨c, id, _, rfl, hpath, rfl⟩, splits_plug d c id _, ?_, ?_⟩
  swap
  · rintro rfl
    exact (Ctx.leavesFrom_plug (fun x hx => hcut.before x (mem_append_left _ hx))
      (fun x hx => hcut.after x (mem_append_right _ hx)) id _).symm
  intro x hx
  have hx := Side.mem_order.mp hx
  cases d with
  | right => exact hcut.before _ (mem_append_left _ (mem_recordsOf.mp hx))
  | left => exact hcut.after _ (mem_append_right _ (mem_recordsOf.mp hx))

/-- The path leads to the rightmost leaf, and these are its ancestors and records. -/
structure Rightmost (t : PageTree h) (path : List PageId) (c : Ctx PageId Bytes Stored 0 h)
    (id : PageId) (records : List (Bytes × Stored)) : Prop where
  plug : t = c.plug (.leaf id records)
  last : c.after = []
  path : path = c.pathIds.reverse ++ [id]

theorem pathToRightmostLeaf_returns (hr : Readable s (.tree t)) :
    Returns Session.Clear pathToRightmostLeaf s fun path s' =>
      s.Quiet s' ∧ ∃ c id records, Rightmost t path c id records := by
  unfold pathToRightmostLeaf descend
  rw [bind_assoc]
  refine Returns.get ?_
  rw [← hr.root]
  refine (descendFrom_returns (G := fun _ => True) (P := fun f => f.beyond .right = [])
    (fun id first rest _ => ?_) t _ [] s hr.rep trivial hr.nodup hr.zero hr.paged hr.height_lt).bind ?_
  · obtain ⟨f, child, hfill, hid, hchild, hedge⟩ := exists_edge_frame .left id first rest
    exact ⟨f, child, hfill, hid, hchild, trivial, hedge⟩
  · rintro ⟨path, leaf⟩ u ⟨hq, c, id, records, rfl, hedge, hpath, -⟩
    exact Returns.pure ⟨hq, c, id, records, rfl, Ctx.after_of_beyond hedge, hpath⟩

/-- **Where a scan from the largest key starts**: nothing lies behind it. -/
theorem Readable.standLast (hr : Readable s (.tree t)) :
    Returns Session.Clear pathToRightmostLeaf s fun path s' => s.Quiet s' ∧
      ∃ rest, Stands .left t path rest ∧ Splits .left t rest [] := by
  refine (pathToRightmostLeaf_returns hr).weaken ?_
  rintro path u ⟨hq, c, id, records, rfl, hlast, hpath⟩
  have hsplits := splits_plug .left c id records
  dsimp only at hsplits
  rw [hlast] at hsplits
  exact ⟨hq, _, ⟨c, id, records, rfl, hpath, rfl⟩, hsplits⟩

/-! ## §3. The loop -/

section Loop

variable {σ : Type} {sc : LeafScan σ} {look : σ → Bytes × Stored → σ × Bool}

/-- The value can be read: its chain is there. -/
def Stored.Legible (pager : Pager) (v : Stored) : Prop :=
  v.Held pager ∧ v.pages.Nodup ∧ 0 ∉ v.pages

/-- The scan walks to side `d`, and `look` is what it does with a record. -/
structure LeafScan.Visits (sc : LeafScan σ) (d : Side) (look : σ → Bytes × Stored → σ × Bool) :
    Prop where
  next : sc.next = neighbour d
  order : ∀ records, sc.order records = d.order records
  visit : ∀ (s : Session) (out : σ) (r : Bytes × Stored), r.2.Legible s.pager →
    Returns Session.Clear (sc.visit out (r.1, r.2.leafValue)) s fun a s' => a = look out r ∧ s.Quiet s'
  full : ∀ out, sc.full out = true → ∀ r, (look out r).1 = out

/-- Every leaf that the scan goes on from passes its check against the neighbour. -/
def LeafScan.Passes (sc : LeafScan σ) (d : Side) (look : σ → Bytes × Stored → σ × Bool)
    (s : Session) : List (LeafAt PageId Bytes Stored) → σ → Prop
  | [], _ => True
  | l :: ls, out =>
    (sweep look (d.order l.records) out).2 = false →
    sc.full (sweep look (d.order l.records) out).1 = false →
      (∀ leaf, s.leafAt l.id = some leaf → sc.agrees leaf (ls.head?.map LeafAt.path) = true)
        ∧ sc.Passes d look s ls (sweep look (d.order l.records) out).1

theorem LeafScan.passes_quiet (hq : s.Quiet s') (ls : List (LeafAt PageId Bytes Stored)) :
    ∀ out, sc.Passes d look s' ls out ↔ sc.Passes d look s ls out := by
  induction ls with
  | nil => exact fun _ => Iff.rfl
  | cons l ls ih =>
    intro out
    unfold LeafScan.Passes
    rw [ih, hq.leafAt]

/-- A scan that does not look at the links. -/
theorem LeafScan.passes_of_agrees (ha : ∀ leaf next, sc.agrees leaf next = true)
    (ls : List (LeafAt PageId Bytes Stored)) : ∀ out, sc.Passes d look s ls out := by
  induction ls with
  | nil => exact fun _ => trivial
  | cons l ls ih => exact fun out _ _ => ⟨fun leaf _ => ha leaf _, ih _⟩

/-- One leaf is one sweep over its records. -/
theorem LeafScan.Visits.visitAll (hv : sc.Visits d look) (records : List (Bytes × Stored)) :
    ∀ (s : Session) (out : σ), (∀ r ∈ records, r.2.Legible s.pager) →
      Returns Session.Clear (sc.visitAll (leafRecords records) out) s fun a s' =>
        a = sweep look records out ∧ s.Quiet s' := by
  induction records with
  | nil =>
    intro s out _
    exact Returns.pure ⟨rfl, Session.Quiet.refl s⟩
  | cons r records ih =>
    intro s out hheld
    show Returns Session.Clear (sc.visitAll ((r.1, r.2.leafValue) :: leafRecords records) out) s _
    unfold LeafScan.visitAll
    refine (hv.visit s out r (hheld r mem_cons_self)).bind ?_
    rintro a u ⟨rfl, hq⟩
    unfold sweep
    dsimp only
    split_ifs with hdone
    · exact Returns.pure ⟨rfl, hq⟩
    · refine (ih u (look out r).1 fun x hx => ?_).weaken ?_
      · have hx := hheld x (mem_cons_of_mem _ hx)
        obtain ⟨faults, rfl⟩ := hq
        exact ⟨hx.1.congr fun _ _ => rfl, hx.2⟩
      · rintro a' w ⟨ha', hq'⟩
        exact ⟨ha', hq.trans hq'⟩

theorem Readable.legible (hr : Readable s (.tree t)) {l : LeafAt PageId Bytes Stored}
    (hl : l ∈ t.leaves) {r : Bytes × Stored} (hmem : r ∈ l.records) : r.2.Legible s.pager := by
  refine hr.values r ?_
  show r ∈ recordsOf t.items
  rw [Node.recordsOf_items]
  exact mem_flatMap.mpr ⟨l, hl, hmem⟩

/-- **A scan sweeps over the records of the leaves from where it stands**, unless a
    leaf it goes on from disagrees with its neighbour. -/
theorem LeafScan.Visits.loop_decides (hv : sc.Visits d look) :
    ∀ (rest : List (LeafAt PageId Bytes Stored)) (turns : Nat) (seen path : List PageId) (out : σ)
      (s : Session), Readable s (.tree t) → Stands d t path rest →
      (seen ++ rest.map LeafAt.id).Nodup → rest.length < turns →
      Decides Session.Clear .leafSiblingMismatch (sc.Passes d look s rest out)
        (sc.loop turns seen path out) s fun r s' =>
        r = (sweep look (rest.flatMap fun l => d.order l.records) out).1 ∧ s.Quiet s' := by
  intro rest
  induction rest with
  | nil =>
    rintro turns seen path out s - ⟨c, id, records, -, -, hrest⟩
    cases hrest
  | cons l ls ih =>
    intro turns seen path out s hr hstand hseen hturns
    obtain ⟨turns, rfl⟩ := Nat.exists_eq_succ_of_ne_zero (Nat.ne_of_gt (Nat.zero_lt_of_lt hturns))
    have hmem : l ∈ t.leaves := hstand.mem mem_cons_self
    have hlook : s.look l.id = some (.inl (leafRecords l.records)) := hr.rep _ (Node.leaf_cell_mem hmem)
    have hnot : ¬ l.id ∈ seen := fun hin =>
      disjoint_of_nodup_append hseen hin mem_cons_self
    have hlast : path.getLast? = some l.id := by
      rw [hstand.path_eq]
      exact getLast?_concat
    unfold LeafScan.loop
    rw [hlast]
    dsimp only
    rw [if_neg hnot]
    refine (readLeaf_returns hlook).decides ?_
    rintro leaf u ⟨hq, hleaf, hrecords⟩
    have horder : sc.order leaf.records = leafRecords (d.order l.records) := by
      rw [hv.order, hrecords]
      exact Side.order_map d _ _
    rw [horder]
    have hru := hr.quiet hq
    refine (hv.visitAll (d.order l.records) u out fun r hmem' =>
      hru.legible hmem (Side.mem_order.mp hmem')).decides ?_
    rintro _ v ⟨rfl, hq'⟩
    have hqv := hq.trans hq'
    rw [flatMap_cons, sweep_append]
    -- the scan returned within the leaf, or behind it, or goes on
    by_cases hdone : (sweep look (d.order l.records) out).2 = true
    · rw [hdone, Bool.true_or, if_pos rfl]
      refine .of_returns (Returns.pure ⟨rfl, hqv⟩) fun hgoes => ?_
      rw [hdone] at hgoes
      cases hgoes
    · have hdone' := Bool.eq_false_iff.mpr hdone
      rw [if_neg hdone, hdone', Bool.false_or]
      cases hfull : sc.full (sweep look (d.order l.records) out).1 with
      | true =>
        rw [if_pos rfl]
        refine .of_returns (Returns.pure ⟨(sweep_fixed (hv.full _ hfull)).symm, hqv⟩)
          fun _ hgoes => ?_
        rw [hfull] at hgoes
        cases hgoes
      | false =>
        rw [if_neg Bool.false_ne_true, hv.next]
        refine (neighbour_returns (hr.quiet hqv) hstand).decides ?_
        rintro next w ⟨hq'', hnext⟩
        have hqw := hqv.trans hq''
        have hheads : next = ls.head?.map LeafAt.path := by
          cases next with
          | none =>
            have hnext : ls = [] := hnext
            rw [hnext]
            rfl
          | some next =>
            have hnext : Stands d t next ls := hnext
            cases ls with
            | nil =>
              obtain ⟨c, id, records, -, -, hrest⟩ := hnext
              cases hrest
            | cons l' ls =>
              rw [hnext.path_eq]
              rfl
        have hpasses : sc.Passes d look s (l :: ls) out ↔ sc.agrees leaf next = true
            ∧ sc.Passes d look s ls (sweep look (d.order l.records) out).1 := by
          rw [hheads]
          constructor
          · intro h
            obtain ⟨hagree, hrest⟩ := h hdone' hfull
            exact ⟨hagree leaf hleaf, hrest⟩
          · rintro ⟨hagree, hrest⟩ - -
            refine ⟨fun leaf' hleaf' => ?_, hrest⟩
            rw [hleaf] at hleaf'
            cases hleaf'
            exact hagree
        by_cases hok : sc.agrees leaf next = true
        · rw [if_pos hok]
          cases next with
          | none =>
            have hnext : ls = [] := hnext
            subst hnext
            exact .of_returns (Returns.pure ⟨rfl, hqw⟩) (hpasses.mpr ⟨hok, trivial⟩)
          | some next =>
            refine (ih turns (l.id :: seen) next _ w (hr.quiet hqw) hnext ?_
              (Nat.lt_of_succ_lt_succ hturns)).congr ?_ ?_
            · exact (perm_middle.nodup_iff).mp hseen
            · rw [hpasses, LeafScan.passes_quiet hqw]
              exact and_iff_right hok
            · rintro r x ⟨hr', hqx⟩
              exact ⟨hr', hqw.trans hqx⟩
        · rw [if_neg hok]
          exact .of_error rfl fun h => hok (hpasses.mp h).1

theorem LeafScan.Visits.walk_decides (hv : sc.Visits d look) {out : σ} (hr : Readable s (.tree t))
    (hstand : Stands d t path rest) :
    Decides Session.Clear .leafSiblingMismatch (sc.Passes d look s rest out) (sc.walk path out) s
      fun r s' => r = (sweep look (rest.flatMap fun l => d.order l.records) out).1 ∧ s.Quiet s' := by
  unfold LeafScan.walk
  refine Decides.get ?_
  refine hv.loop_decides rest _ [] path out s hr hstand ?_ ?_
  · exact hstand.ids_nodup hr.nodup
  · exact Nat.lt_of_le_of_lt hstand.length_le hr.leaves_lt

theorem LeafScan.Visits.walk_returns (hv : sc.Visits d look) {out : σ} (hr : Readable s (.tree t))
    (ha : ∀ leaf next, sc.agrees leaf next = true) (hstand : Stands d t path rest) :
    Returns Session.Clear (sc.walk path out) s fun r s' =>
      r = (sweep look (rest.flatMap fun l => d.order l.records) out).1 ∧ s.Quiet s' :=
  (hv.walk_decides hr hstand).returns (sc.passes_of_agrees ha rest out)

end Loop

end Pagedb
