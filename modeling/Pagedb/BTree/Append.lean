/-
  Pagedb.BTree.Append — `put_append` (`btree/tree/write.rs`).

  An append goes to the rightmost leaf without a descent for its key: it takes the
  path it remembers, and compares the key with the last one it appended or, on a
  first append, with the last record of that leaf (`Session.appendBound`).  Two things
  can go wrong, and `Session.Appendable` names them: the remembered path may be stale,
  and an emptied leaf has no record to compare with.  Where neither does, an append is
  a checked put.

  Main results:
    * `treePutAppend_blocked`  — a key that is not above that one is refused;
    * `treePutAppend_spec`     — any other key is put;
    * `treePutAppend_isOk`     — and whether that succeeds does not depend on which
      of the two calls it is.
-/
import Pagedb.BTree.Batch
import Pagedb.BTree.Marks
import Pagedb.BTree.Reads

namespace Pagedb

open Lib List

variable {g : Surroundings} {s s' : Session} {retired : List PageId} {i : Image} {h H : Nat}
  {t : PageTree H}

/-! ## §1. What a session represents -/

/-- The session with no fault ahead. -/
def Session.calm (s : Session) : Session := { s with pager := s.pager.withFaults [] }

theorem Session.quiet_calm (s : Session) : s.Quiet s.calm := ⟨[], rfl⟩

theorem Session.clear_calm (s : Session) : s.calm.Clear := rfl

theorem Session.Quiet.eq_of_clear (hq : s.Quiet s') (hs : s.Clear) (hs' : s'.Clear) : s' = s := by
  obtain ⟨faults, rfl⟩ := hq
  have hs' : faults = [] := hs'
  have hs : s.pager.faults = [] := hs
  rw [hs', ← hs]
  rfl

/-- The map a session represents: what lookups find when no await fails. -/
def Session.map (s : Session) (k : Bytes) : Option Bytes := (value? (treeGet k s.calm)).join

theorem Readable.map_eq (hr : Readable s i) : s.map = i.map := by
  funext k
  obtain ⟨v, t, hrun, ⟨hv, -⟩, -⟩ := ((hr.quiet s.quiet_calm).treeGet_returns k).value s.clear_calm
  unfold Session.map
  rw [hrun]
  exact hv

theorem Image.map_isSome_iff {k : Bytes} :
    (i.map k).isSome = true ↔ ∃ r ∈ recordsOf i.items, r.1 = k := by
  unfold Image.map contents
  rw [Option.isSome_map]
  exact find_isSome_iff

/-! ## §2. The rightmost leaf -/

variable {path : List PageId} {c : Ctx PageId Bytes Stored 0 H} {id : PageId}
  {records : List (Bytes × Stored)} {k : Bytes}

variable (hr : Rightmost t path c id records)

include hr

theorem Rightmost.leaves :
    t.leaves.getLast? = some ⟨c.pathIds.reverse, id, records⟩ := by
  have hleaves := Ctx.plug_leaves .right c (.leaf id records)
  rw [← hr.plug, Ctx.ahead_right_of_after hr.last, append_nil] at hleaves
  have hleaves : t.leaves = _ ++ [(⟨c.pathIds.reverse ++ [], id, records⟩ : LeafAt _ _ _)] :=
    hleaves
  rw [hleaves, getLast?_concat, append_nil]

theorem Rightmost.unique {path' : List PageId} {c' : Ctx PageId Bytes Stored 0 H} {id' : PageId}
    {records' : List (Bytes × Stored)} (hr' : Rightmost t path' c' id' records') :
    path = path' ∧ records = records' := by
  have heq := Option.some.inj (hr.leaves.symm.trans hr'.leaves)
  rw [hr.path, hr'.path]
  exact ⟨congrArg LeafAt.path heq, congrArg LeafAt.records heq⟩

theorem Rightmost.items :
    t.items = c.before ++ entries records := by
  rw [hr.plug, Ctx.plug_items, hr.last, append_nil]
  rfl

theorem Rightmost.look (hread : Readable s (.tree t)) :
    s.look id = some (.inl (leafRecords records)) := by
  have hcell : (id, Cell.leaf records) ∈ t.cells := by
    rw [hr.plug]
    exact (c.plug_cells _).mem_iff.mpr (mem_append_left _ (mem_singleton_self _))
  exact hread.rep _ hcell

theorem maxKeyAtPath_returns (hread : Readable s (.tree t)) :
    Returns Session.Clear (maxKeyAtPath path) s fun m s' =>
      m = records.getLast?.map Prod.fst ∧ s.Quiet s' := by
  unfold maxKeyAtPath
  rw [hr.path, getLast?_concat]
  refine (readLeaf_returns (hr.look hread)).bind ?_
  rintro leaf u ⟨hq, -, hrecords⟩
  refine Returns.pure ⟨?_, hq⟩
  rw [hrecords]
  unfold leafRecords
  rw [getLast?_map, Option.map_map]
  rfl

/-- **The last record of the rightmost leaf decides.**  Everything in the tree lies
    before a key above it. -/
theorem Rightmost.before_of_lt (hord : InOrder t.items)
    {m : Bytes} {v : Stored} (hlast : records.getLast? = some (m, v)) (hk : m < k) :
    ∀ x ∈ t.items, x.Before k := by
  obtain ⟨front, hrecords⟩ := getLast?_eq_some_iff.mp hlast
  have hitems : t.items = (c.before ++ entries front) ++ [Item.entry m v] := by
    rw [hr.items, hrecords]
    unfold entries
    rw [map_append, append_assoc]
    rfl
  rw [hitems] at hord ⊢
  intro x hx
  rcases mem_concat.mp hx with hx | rfl
  · have hlt := (pairwise_append.mp hord).2.2 x hx _ (mem_singleton_self _)
    cases x with
    | sep a => exact le_of_lt (lt_of_le_of_lt hlt hk)
    | entry a w => exact lt_trans hlt hk
  · exact hk

theorem Rightmost.mem_of_getLast {r : Bytes × Stored}
    (hlast : records.getLast? = some r) : r ∈ recordsOf t.items := by
  rw [hr.items, recordsOf_append]
  refine mem_append_right _ ?_
  rw [entries, recordsOf_records]
  exact mem_of_getLast? hlast

omit hr

/-! ## §3. When an append is safe -/

/-- The separators around the rightmost leaf. -/
def rightmostBounds : TreeM LeafBounds := do
  let path ← pathToRightmostLeaf
  separatorBoundsForPath path

/-- A remembered path is the one a descent finds.  A key that is refused against the
    one last appended does not get that far. -/
def Session.Trusts (s : Session) (k : Bytes) : Prop :=
  ∀ p, s.appendCachedPath = some p → (∀ a, s.appendLastKey = some a → a < k) →
    value? (pathToRightmostLeaf s.calm) = some p

/-- On a first append, a leaf that has no record to compare with is the one where the
    key belongs. -/
def Session.Places (s : Session) (k : Bytes) : Prop :=
  s.rootPageId ≠ 0 → s.appendLastKey = none → value? (lastKey s.calm) = some none →
    ∃ b, value? (rightmostBounds s.calm) = some b ∧ b.contains k = true

/-- What `put_append` takes for granted. -/
structure Session.Appendable (s : Session) (k : Bytes) : Prop where
  path : s.Trusts k
  leaf : s.Places k

/-- The key that `put_append` compares with: the one last appended or, on a first
    append, the last of the rightmost leaf. -/
def Session.appendBound (s : Session) : Option Bytes :=
  s.appendLastKey.or (value? (lastKey s.calm)).join

/-- The key last appended is the last of the tree. -/
def Session.LastIn (s : Session) (i : Image) : Prop :=
  ∀ a, s.appendLastKey = some a → ∃ front v, i.items = front ++ [.entry a v]

theorem Readable.rightmost (hread : Readable s (.tree t)) :
    ∃ path c id records, Rightmost t path c id records
      ∧ value? (pathToRightmostLeaf s.calm) = some path := by
  obtain ⟨path, u, hrun, ⟨-, c, id, records, hr⟩, -⟩ :=
    (pathToRightmostLeaf_returns (hread.quiet s.quiet_calm)).value s.clear_calm
  exact ⟨path, c, id, records, hr, hrun⟩

theorem appendPath_returns (hread : Readable s (.tree t)) (htrust : s.Trusts k)
    (hkey : ∀ a, s.appendLastKey = some a → a < k) :
    Returns Session.Clear appendPath s fun path s' =>
      s.Quiet s' ∧ ∃ c id records, Rightmost t path c id records := by
  unfold appendPath
  refine Returns.get ?_
  cases hp : s.appendCachedPath with
  | none => exact pathToRightmostLeaf_returns hread
  | some p =>
    obtain ⟨path, c, id, records, hr, hrun⟩ := hread.rightmost
    cases hrun.symm.trans (htrust p hp hkey)
    exact Returns.pure ⟨Session.Quiet.refl s, c, id, records, hr⟩

/-- A key appended last is the last of the rightmost leaf. -/
theorem Rightmost.last_appended (hr : Rightmost t path c id records)
    (hlast : s.LastIn (.tree t)) {a : Bytes} (ha : s.appendLastKey = some a) :
    ∃ v, records.getLast? = some (a, v) := by
  obtain ⟨front, v, hitems⟩ := hlast a ha
  have hitems : c.before ++ entries records = front ++ [.entry a v] := hr.items.symm.trans hitems
  rcases eq_nil_or_concat records with rfl | ⟨init, r, rfl⟩
  · -- the items left of an empty leaf end in a separator
    have hitems : c.before = front ++ [.entry a v] := by
      rw [← hitems]
      exact (append_nil _).symm
    have hlower := c.before_lower
    cases hc : c.lower with
    | none =>
      rw [hc] at hlower
      rw [show c.before = [] from hlower] at hitems
      exact absurd hitems.symm (by simp)
    | some b =>
      rw [hc] at hlower
      obtain ⟨init, hinit⟩ := hlower
      rw [hinit] at hitems
      have hend := (append_inj' hitems rfl).2
      cases hend
  · rw [concat_eq_append] at hitems ⊢
    refine ⟨v, ?_⟩
    have hitems : (c.before ++ entries init) ++ [.entry r.1 r.2] = front ++ [.entry a v] := by
      rw [← hitems, append_assoc]
      unfold entries
      rw [map_append]
      rfl
    have hend := (append_inj' hitems rfl).2
    rw [getLast?_concat]
    cases hend
    rfl

/-- The leaf that `last_key` looks at. -/
theorem Rightmost.lastKey (hr : Rightmost t path c id records) (hread : Readable s (.tree t)) :
    value? (lastKey s.calm) = some (records.getLast?.map Prod.fst) := by
  have hcalm := hread.quiet s.quiet_calm
  have hreturns : Returns Session.Clear Pagedb.lastKey s.calm fun m _ =>
      m = records.getLast?.map Prod.fst := by
    unfold Pagedb.lastKey
    refine Returns.get ?_
    rw [if_neg hcalm.root_ne_zero]
    refine (pathToRightmostLeaf_returns hcalm).bind ?_
    rintro path' u ⟨hq, c', id', records', hr'⟩
    obtain ⟨-, rfl⟩ := hr.unique hr'
    refine (maxKeyAtPath_returns hr' (hcalm.quiet hq)).weaken ?_
    rintro m _ ⟨rfl, -⟩
    rfl
  obtain ⟨m, u, hrun, rfl, -⟩ := hreturns.value s.clear_calm
  exact hrun

/-- **The key that is compared with is the last of the rightmost leaf.** -/
theorem Rightmost.bound (hr : Rightmost t path c id records) (hread : Readable s (.tree t))
    (hlast : s.LastIn (.tree t)) : s.appendBound = records.getLast?.map Prod.fst := by
  unfold Session.appendBound
  cases hkey : s.appendLastKey with
  | none => exact congrArg Option.join (hr.lastKey hread)
  | some a =>
    obtain ⟨v, hv⟩ := hr.last_appended hlast hkey
    rw [hv]
    rfl

/-- It is a key of the tree. -/
theorem Readable.bound_mem (hread : Readable s i) (hlast : s.LastIn i) {m : Bytes}
    (hm : s.appendBound = some m) : ∃ r ∈ recordsOf i.items, r.1 = m := by
  cases i with
  | empty =>
    have hnone : s.appendBound = none := by
      have hkey : s.appendLastKey = none := by
        refine Option.eq_none_iff_forall_ne_some.mpr fun a ha => ?_
        obtain ⟨front, v, hitems⟩ := hlast a ha
        exact absurd hitems.symm (append_ne_nil_of_right_ne_nil _ (by simp))
      have hroot : s.calm.rootPageId = 0 := hread.root.symm
      unfold Session.appendBound Pagedb.lastKey
      rw [hkey, get_bind, if_pos hroot]
      rfl
    rw [hnone] at hm
    cases hm
  | tree t =>
    obtain ⟨path, c, id, records, hr, -⟩ := hread.rightmost
    rw [hr.bound hread hlast] at hm
    obtain ⟨r, hlastr, rfl⟩ := Option.map_eq_some_iff.mp hm
    exact ⟨r, hr.mem_of_getLast hlastr, rfl⟩

theorem Session.appended_lt (hbound : ∀ m, s.appendBound = some m → m < k) (a : Bytes)
    (ha : s.appendLastKey = some a) : a < k := by
  refine hbound a ?_
  unfold Session.appendBound
  rw [ha]
  rfl

/-- The separators around the rightmost leaf, by any way to it. -/
theorem Rightmost.bounds (hr : Rightmost t path c id records) (hread : Readable s (.tree t))
    {c' : Ctx PageId Bytes Stored 0 H} {id' : PageId} {records' : List (Bytes × Stored)}
    (ht : t = c'.plug (.leaf id' records')) (hpath : path = c'.pathIds.reverse ++ [id']) :
    value? (rightmostBounds s.calm) = some ⟨c'.lower, c'.upper⟩ := by
  have hcalm := hread.quiet s.quiet_calm
  have hbounds : Returns Session.Clear rightmostBounds s.calm fun b _ => b = ⟨c'.lower, c'.upper⟩ := by
    unfold rightmostBounds
    refine (pathToRightmostLeaf_returns hcalm).bind ?_
    rintro path' u ⟨hq, c'', id'', records'', hr''⟩
    obtain ⟨rfl, -⟩ := hr.unique hr''
    have hu := hcalm.quiet hq
    rw [ht] at hu
    rw [hpath]
    exact (separatorBoundsForPath_returns hu).weaken fun _ _ h => h.1
  obtain ⟨b, u, hrun, rfl, -⟩ := hbounds.value s.clear_calm
  exact hrun

/-- **A key above the one it is compared with belongs at the right end of the tree.** -/
theorem Places.before (hread : Readable s (.tree t)) (hlast : s.LastIn (.tree t))
    (hplaces : s.Places k) (hbound : ∀ m, s.appendBound = some m → m < k) :
    ∀ x ∈ t.items, x.Before k := by
  obtain ⟨path, c, id, records, hr, -⟩ := hread.rightmost
  rw [hr.bound hread hlast] at hbound
  cases hmax : records.getLast? with
  | some r => exact hr.before_of_lt hread.ordered hmax (hbound r.1 (by rw [hmax]; rfl))
  | none =>
    -- nothing to compare with: the separators decide
    have hempty := getLast?_eq_none_iff.mp hmax
    subst hempty
    have hkey : s.appendLastKey = none := by
      refine Option.eq_none_iff_forall_ne_some.mpr fun a ha => ?_
      obtain ⟨v, hv⟩ := hr.last_appended hlast ha
      cases hv
    obtain ⟨b, hb, hin⟩ := hplaces hread.root_ne_zero hkey (hr.lastKey hread)
    cases hb.symm.trans (hr.bounds hread hr.plug hr.path)
    have hitems : t.items = c.before := by
      rw [hr.items]
      exact append_nil _
    have hord : InOrder t.items := hread.ordered
    rw [hitems] at hord ⊢
    refine Ctx.before_of_lower hord fun a ha => ?_
    have hlower : c.lower.all (fun lower => decide (lower ≤ k)) = true :=
      (Bool.and_eq_true_iff.mp hin).1
    rw [Option.mem_def.mp ha] at hlower
    exact of_decide_eq_true hlower

/-- **A key that is not above all is not above the one it is compared with.** -/
theorem Places.bound_of_blocked (hread : Readable s i) (hlast : s.LastIn i) (hplaces : s.Places k)
    (hblocked : ∃ r ∈ recordsOf i.items, k ≤ r.1) : ∃ m, s.appendBound = some m ∧ k ≤ m := by
  obtain ⟨r, hmem, hk⟩ := hblocked
  by_contra hnone
  have hbound : ∀ m, s.appendBound = some m → m < k := fun m hm =>
    not_le.mp fun hle => hnone ⟨m, hm, hle⟩
  cases i with
  | empty => cases hmem
  | tree t =>
    have hbefore := Places.before hread hlast hplaces hbound _ (mem_recordsOf.mp hmem)
    exact absurd hbefore (not_lt.mpr hk)

/-! ## §4. Refusals -/

theorem maxKeyAtPath_quiet {s₀ : Session} (path : List PageId) :
    Keeps s₀.Quiet (maxKeyAtPath path) := by
  unfold maxKeyAtPath
  cases path.getLast? with
  | none => exact Keeps.throw _
  | some id => exact (Reading.quiet fun _ => readLeaf_reading id).bind fun _ => Keeps.pure _

theorem appendPath_quiet {s₀ : Session} : Keeps s₀.Quiet appendPath := by
  unfold appendPath
  refine Keeps.get.bind fun s => ?_
  cases s.appendCachedPath with
  | some p => exact Keeps.pure _
  | none => exact Reading.quiet fun _ => pathToRightmostLeaf_reading

theorem quiet_of_error {α : Type} {x : TreeM α} {e : TreeError} (hx : Keeps s.Quiet x)
    (hrun : x s = .error e s') : s.Quiet s' := by
  have h := hx s (Session.Quiet.refl s)
  rw [hrun] at h
  exact h

theorem checkAppendKey_refuses {m : Bytes} (hk : k ≤ m) :
    checkAppendKey k (some m) s = .error .appendNotMonotonic s := by
  unfold checkAppendKey
  rw [if_pos (show (some m).any (fun last => decide (k ≤ last)) = true from decide_eq_true hk)]
  rfl

theorem checkAppendKey_passes {last : Option Bytes} (hk : ∀ m, last = some m → m < k) :
    checkAppendKey k last = pure () := by
  unfold checkAppendKey
  cases last with
  | none => rfl
  | some m =>
    rw [if_neg]
    intro h
    exact absurd (of_decide_eq_true (show decide (k ≤ m) = true from h)) (not_le.mpr (hk m rfl))

theorem checkAppendKey_eq_ok {last : Option Bytes} {u : Unit}
    (hrun : checkAppendKey k last s = .ok u s') : s' = s := by
  unfold checkAppendKey at hrun
  split at hrun
  · cases hrun
  · exact (pure_eq_ok.mp hrun).2.symm

theorem validateInsertRecordFits_cases (k v : Bytes) (s : Session) :
    validateInsertRecordFits k v s = .ok () s
      ∨ validateInsertRecordFits k v s = .error .payloadTooLarge s := by
  unfold validateInsertRecordFits
  rw [get_bind]
  split
  · exact Or.inl rfl
  · exact Or.inr rfl

theorem validate_of_isOk {v : Bytes} (h : isOk (validateInsertRecordFits k v s) = true) :
    validateInsertRecordFits k v s = .ok () s := by
  rcases validateInsertRecordFits_cases k v s with hok | herror
  · exact hok
  · rw [herror] at h
    cases h

theorem fits_of_validate {v : Bytes} (hvalid : validateInsertRecordFits k v s = .ok () s) :
    singleRecordFitsEncoded k.length (storedLeafValueEncodedSize v.length s.pageSize) s.pageSize
      = true := by
  unfold validateInsertRecordFits at hvalid
  rw [get_bind] at hvalid
  split at hvalid
  · rename_i hfits
    exact (Bool.and_eq_true_iff.mp hfits).1
  · cases hvalid

/-- **A key that is not above the one it is compared with is refused**, and the session
    stays as it was. -/
theorem treePutAppend_blocked {v m : Bytes} (hread : Readable s i) (hlast : s.LastIn i)
    (htrust : s.Trusts k) (hm : s.appendBound = some m) (hk : k ≤ m) :
    ∃ e s', treePutAppend k v s = .error e s' ∧ s.Quiet s'
      ∧ (s.Clear → validateInsertRecordFits k v s = .ok () s → e = .appendNotMonotonic) := by
  unfold treePutAppend
  rw [get_bind]
  cases hkey : s.appendLastKey with
  | some a =>
    unfold Session.appendBound at hm
    rw [hkey] at hm
    cases hm
    exact ⟨_, s, bind_of_error (checkAppendKey_refuses hk), Session.Quiet.refl s, fun _ _ => rfl⟩
  | none =>
    rw [show checkAppendKey k none = pure () from rfl, pure_bind]
    rcases validateInsertRecordFits_cases k v s with hvalid | hvalid
    swap
    · refine ⟨_, s, bind_of_error hvalid, Session.Quiet.refl s, fun _ hok => ?_⟩
      rw [hvalid] at hok
      cases hok
    cases i with
    | empty =>
      obtain ⟨r, hr, -⟩ := hread.bound_mem hlast hm
      cases hr
    | tree t =>
      rw [bind_of_ok hvalid, get_bind, if_neg hread.root_ne_zero]
      have hpath := appendPath_returns hread htrust (by rw [hkey]; nofun)
      cases hp : appendPath s with
      | error e u =>
        refine ⟨e, u, bind_of_error hp, quiet_of_error appendPath_quiet hp, ?_⟩
        intro hclear _
        obtain ⟨_, _, hok, -⟩ := hpath.total hclear
        rw [hp] at hok
        cases hok
      | ok path u =>
        rw [bind_of_ok hp]
        obtain ⟨hq, c, id, records, hr⟩ := hpath.sound _ _ hp
        have hunone : u.appendLastKey.isNone = true := by
          obtain ⟨faults, rfl⟩ := hq
          show s.appendLastKey.isNone = true
          rw [hkey]
          rfl
        have hclear : s.Clear → u.Clear := by
          intro hclear
          obtain ⟨_, _, hok, hu⟩ := hpath.total hclear
          rw [hp] at hok
          cases hok
          exact hu
        have hmax := maxKeyAtPath_returns hr (hread.quiet hq)
        unfold checkAppendMax
        rw [bind_assoc, get_bind, if_pos hunone]
        cases hread' : maxKeyAtPath path u with
        | error e x =>
          refine ⟨e, x, ?_, hq.trans (quiet_of_error (maxKeyAtPath_quiet path) hread'), ?_⟩
          · rw [bind_assoc, bind_of_error hread']
          · intro hs _
            obtain ⟨_, _, hok, -⟩ := hmax.total (hclear hs)
            rw [hread'] at hok
            cases hok
        | ok found x =>
          obtain ⟨rfl, hq'⟩ := hmax.sound _ _ hread'
          rw [← hr.bound hread hlast, hm] at hread'
          refine ⟨_, x, ?_, hq.trans hq', fun _ _ => rfl⟩
          rw [bind_assoc, bind_of_ok hread']
          exact bind_of_error (checkAppendKey_refuses hk)

/-! ## §5. Appends -/

theorem Readable.marked (hr : Readable s i) (last : Option Bytes) (path : Option (List PageId)) :
    Readable (s.marked last path) i :=
  ⟨hr.rep, hr.ordered, hr.nodup, hr.zero, hr.paged, hr.values, hr.root⟩

/-- The first record of an empty tree, as `put` writes it. -/
theorem putAppendFirst_eq_ok {v : Bytes} {u : Unit} (hrun : putAppendFirst k v s = .ok u s') :
    ∃ lv s₁ s₂, leafValueFor v s = .ok lv s₁ ∧ putFirst k lv s₁ = .ok () s₂
      ∧ s' = s₂.marked (some k) (some [s₂.rootPageId]) := by
  unfold putAppendFirst at hrun
  obtain ⟨lv, s₁, hvalue, hrun⟩ := bind_eq_ok.mp hrun
  obtain ⟨root, w, halloc, hrun⟩ := bind_eq_ok.mp hrun
  obtain ⟨_, x, hwrite, hrun⟩ := bind_eq_ok.mp hrun
  obtain rfl := modify_eq_ok.mp hrun
  refine ⟨lv, s₁, { x with rootPageId := root, appendCachedPath := none }, hvalue, ?_, rfl⟩
  unfold putFirst
  rw [bind_of_ok halloc, bind_of_ok hwrite]
  rfl

/-- The read-out ends with the key that was put behind all others. -/
theorem items_of_append {v : Stored} {left right : List (Bytes × Stored)} {old : Option Stored}
    (hr : Rightmost t path c id (around left k old right)) (hcut : Cut c k left right)
    (hbefore : ∀ x ∈ t.items, x.Before k) {items : List (Item Bytes Stored)}
    (hitems : items = (c.plug (.leaf id (around left k (some v) right))).items
      ∨ SplitItems c (around left k (some v) right) items) :
    ∃ front, items = front ++ [.entry k v] := by
  -- nothing lies to the right of the key
  have hright : right = [] := by
    refine eq_nil_iff_forall_not_mem.mpr fun r hmem => ?_
    have hitem : Item.entry r.1 r.2 ∈ t.items := by
      rw [hr.items]
      refine mem_append_right _ (mem_map.mpr ⟨r, ?_, rfl⟩)
      exact mem_append_right _ hmem
    exact absurd (hcut.around.gt r hmem) (not_lt.mpr (le_of_lt (hbefore _ hitem)))
  subst hright
  rcases hitems with rfl | ⟨A, a, b, B, hrecords, rfl⟩
  · refine ⟨c.before ++ entries left, ?_⟩
    rw [plug_around_items, hr.last]
    simp [entries]
  · -- the right half of a split ends with the record
    have hend : A ++ [a] ++ (b :: B) = left ++ [(k, v)] := by
      have hrecords : left ++ [(k, v)] ++ [] = A ++ a :: b :: B := hrecords
      rw [append_nil] at hrecords
      rw [hrecords, append_assoc]
      rfl
    obtain ⟨init, r, hbB⟩ : ∃ init r, b :: B = init ++ [r] := by
      rcases eq_nil_or_concat (b :: B) with hnil | ⟨init, r, hbB⟩
      · cases hnil
      · exact ⟨init, r, by rw [hbB, concat_eq_append]⟩
    have hr' : r = (k, v) := by
      rw [hbB, ← append_assoc] at hend
      have hlast := (append_inj' hend rfl).2
      exact head_eq_of_cons_eq hlast
    refine ⟨c.before ++ (entries (A ++ [a]) ++ .sep b.1 :: entries init), ?_⟩
    rw [hbB, hr', hr.last, append_nil]
    simp [entries]

/-- **An append that returns has put its record**, behind all others. -/
theorem treePutAppend_spec {v : Bytes} {u : Unit} (hs : Carries g s retired i)
    (hlast : s.LastIn i) (happ : s.Appendable k) (hrun : treePutAppend k v s = .ok u s') :
    ∃ i' : Image, Carries g s' retired i' ∧ i'.map = Function.update i.map k (some v)
      ∧ s'.LastIn i' := by
  have hbound : ∀ m, s.appendBound = some m → m < k := by
    intro m hm
    refine not_le.mp fun hk => ?_
    obtain ⟨e, w, herror, -⟩ :=
      treePutAppend_blocked (v := v) hs.readable hlast happ.path hm hk
    rw [hrun] at herror
    cases herror
  unfold treePutAppend at hrun
  rw [get_bind] at hrun
  obtain ⟨_, s₁, hcheck, hrest⟩ := bind_eq_ok.mp hrun
  rw [checkAppendKey_eq_ok hcheck] at hrest
  obtain ⟨_, s₂, hvalid, hrun⟩ := bind_eq_ok.mp hrest
  rw [validateInsertRecordFits_eq_ok hvalid, get_bind, ← hs.root] at hrun
  cases i with
  | empty =>
    rw [if_pos (show Image.root .empty = 0 from rfl)] at hrun
    obtain ⟨lv, w, x, hvalue, hfirst, rfl⟩ := putAppendFirst_eq_ok hrun
    obtain ⟨v, rfl, rfl, hheld, hl, ht⟩ := leafValueFor_spec hs.live.ledger hvalue
    have hlive : Live g w retired v.pages [] [] [] := hs.live.touch ht hl (List.Subset.refl _)
    obtain ⟨t, ht', hitems⟩ := putFirst_spec hlive hheld hfirst
    refine ⟨.tree t, (Carries.of_holds ht').marked _ _, map_of_first hitems, ?_⟩
    intro a ha
    cases ha
    exact ⟨[], v, hitems⟩
  | tree t =>
    rw [if_neg hs.readable.outline.image_root] at hrun
    obtain ⟨path, s₃, hpath, hrun⟩ := bind_eq_ok.mp hrun
    obtain ⟨hq, c, id, records, hr⟩ :=
      (appendPath_returns hs.readable happ.path (Session.appended_lt hbound)).sound _ _ hpath
    obtain ⟨_, s₄, hmax, hrun⟩ := bind_eq_ok.mp hrun
    have hq' : s.Quiet s₄ := by
      unfold checkAppendMax at hmax
      rw [get_bind] at hmax
      split at hmax
      · obtain ⟨m, w, hread, hcheck'⟩ := bind_eq_ok.mp hmax
        obtain ⟨-, hqw⟩ :=
          (maxKeyAtPath_returns hr (hs.readable.quiet hq)).sound _ _ hread
        rw [checkAppendKey_eq_ok hcheck']
        exact hq.trans hqw
      · rw [← (pure_eq_ok.mp hmax).2]
        exact hq
    rw [modify_bind] at hrun
    obtain ⟨lv, s₅, hvalue, hrun⟩ := bind_eq_ok.mp hrun
    obtain ⟨split, s₆, hput, hrun⟩ := bind_eq_ok.mp hrun
    obtain rfl := modify_eq_ok.mp hrun
    -- the key belongs at the right end
    have hbefore := Places.before hs.readable hlast happ.leaf hbound
    have hord : InOrder (c.plug (.leaf id records)).items := by
      rw [← hr.plug]
      exact hs.live.ordered
    obtain ⟨left, old, right, rfl, hcut⟩ := exists_cut hord
      (fun x hx => hbefore x (by rw [hr.items]; exact mem_append_left _ hx))
      (fun x hx => by rw [hr.last] at hx; cases hx)
    have h₄ : Carries g { s₄ with appendCachedPath := none } retired (.tree t) :=
      (Carries.of_holds (hs.holds.quiet hq')).marked s₄.appendLastKey none
    obtain ⟨v, rfl, rfl, hheld, hl₅, ht₅⟩ := leafValueFor_spec h₄.live.ledger hvalue
    have h₅ : Holds g s₅ retired v.pages t := h₄.holds.touch ht₅ hl₅ (List.Subset.refl _)
    have hplug := hr.plug
    subst hplug
    rw [hr.path] at hput
    have hcontents := hcut.contents_eq id old (some v)
    rcases putAtPath_cases h₅ hcut hheld hput with ⟨rfl, h₆⟩ | ⟨rfl, H', t', h₆, hitems⟩
    · obtain ⟨front, hfront⟩ := items_of_append (v := v) hr hcut hbefore (Or.inl rfl)
      refine ⟨.tree _, (Carries.of_holds h₆).marked _ _, hcontents, ?_⟩
      intro a ha
      cases ha
      exact ⟨front, v, hfront⟩
    · obtain ⟨front, hfront⟩ := items_of_append (v := v) hr hcut hbefore (Or.inr hitems)
      refine ⟨.tree t', (Carries.of_holds h₆).marked _ _, (hitems.contents_eq id).trans hcontents, ?_⟩
      intro a ha
      cases ha
      exact ⟨front, v, hfront⟩

/-- **A key above the one it is compared with is never refused**, whatever else may
    fail. -/
theorem treePutAppend_not_refused {v : Bytes} {e : TreeError} (hread : Readable s i)
    (hlast : s.LastIn i) (htrust : s.Trusts k) (hbound : ∀ m, s.appendBound = some m → m < k)
    (hrun : treePutAppend k v s = .error e s') : e ≠ .appendNotMonotonic := by
  unfold treePutAppend at hrun
  rw [get_bind] at hrun
  rw [checkAppendKey_passes (Session.appended_lt hbound), pure_bind] at hrun
  rcases validateInsertRecordFits_cases k v s with hvalid | hvalid
  swap
  · rw [bind_of_error hvalid] at hrun
    cases hrun
    decide
  rw [bind_of_ok hvalid, get_bind, ← hread.root] at hrun
  cases i with
  | empty =>
    rw [if_pos (show Image.root .empty = 0 from rfl)] at hrun
    unfold putAppendFirst at hrun
    rcases bind_eq_error.mp hrun with hvalue | ⟨lv, w, hvalue, hrun⟩
    · exact ((leafValueFor_steps v).unmarked none none).fails _ _ _ hvalue
    rcases bind_eq_error.mp hrun with halloc | ⟨root, x, halloc, hrun⟩
    · exact (Steps.allocate.unmarked none none).fails _ _ _ halloc
    rcases bind_eq_error.mp hrun with hwrite | ⟨_, y, hwrite, hrun⟩
    · exact ((writeLeaf_steps root _).unmarked none none).fails _ _ _ hwrite
    cases hrun
  | tree t =>
    rw [if_neg hread.outline.image_root] at hrun
    rcases bind_eq_error.mp hrun with hpath | ⟨path, u, hpath, hrun⟩
    · unfold appendPath at hpath
      rw [get_bind] at hpath
      cases hp : s.appendCachedPath with
      | some p =>
        rw [hp] at hpath
        cases hpath
      | none =>
        rw [hp] at hpath
        exact (pathToRightmostLeaf_steps.unmarked none none).fails _ _ _ hpath
    obtain ⟨hq, c, id, records, hr⟩ :=
      (appendPath_returns hread htrust (Session.appended_lt hbound)).sound _ _ hpath
    rcases bind_eq_error.mp hrun with hmax | ⟨_, w, -, hrun⟩
    · -- the largest key was read, and the key lies above it
      unfold checkAppendMax at hmax
      rw [get_bind] at hmax
      split at hmax
      · rcases bind_eq_error.mp hmax with hmax | ⟨m, x, hmax, hcheck⟩
        · exact ((maxKeyAtPath_steps path).unmarked none none).fails _ _ _ hmax
        · obtain ⟨rfl, -⟩ := (maxKeyAtPath_returns hr (hread.quiet hq)).sound _ _ hmax
          rw [← hr.bound hread hlast, checkAppendKey_passes hbound] at hcheck
          cases hcheck
      · cases hmax
    rw [modify_bind] at hrun
    rcases bind_eq_error.mp hrun with hvalue | ⟨lv, x, -, hrun⟩
    · exact ((leafValueFor_steps v).unmarked none none).fails _ _ _ hvalue
    rcases bind_eq_error.mp hrun with hput | ⟨split, y, -, hrun⟩
    · exact ((putAtPath_steps path k lv).unmarked none none).fails _ _ _ hput
    cases hrun

/-- Whether page steps return does not depend on the marks. -/
theorem Steps.isOk_bind {α β : Type} {x : TreeM α} {f f' : α → TreeM β} {last last' : Option Bytes}
    {path path' : Option (List PageId)} (hx : Steps true x)
    (hf : ∀ a w, x s = .ok a w →
      isOk (f a (w.marked last path)) = isOk (f' a (w.marked last' path'))) :
    isOk ((x >>= f) (s.marked last path)) = isOk ((x >>= f') (s.marked last' path')) := by
  have hrun := (hx.unmarked last path).run s
  have hrun' := (hx.unmarked last' path').run s
  cases hxs : x s with
  | error e w =>
    rw [hxs] at hrun hrun'
    rw [bind_of_error hrun, bind_of_error hrun']
    rfl
  | ok a w =>
    rw [hxs] at hrun hrun'
    rw [bind_of_ok hrun, bind_of_ok hrun']
    exact hf a w hxs

theorem validate_unmarked {v : Bytes} (hvalid : validateInsertRecordFits k v s = .ok () s) :
    validateInsertRecordFits k v (s.marked none none) = .ok () (s.marked none none) := by
  have hvalid' := ((validateInsertRecordFits_steps k v).unmarked none none).run s
  rwa [hvalid] at hvalid'

/-- The first record of an empty tree is written the same way. -/
theorem putAppendFirst_isOk {v : Bytes} (hroot : s.rootPageId = 0)
    (hvalid : validateInsertRecordFits k v s = .ok () s) (hs : Carries g s retired .empty) :
    isOk (putAppendFirst k v s) = isOk (treePut k v s) := by
  show isOk ((leafValueFor v >>= _) (s.marked s.appendLastKey s.appendCachedPath))
    = isOk ((validateInsertRecordFits k v >>= _) (s.marked none none))
  rw [bind_of_ok (validate_unmarked hvalid)]
  refine (leafValueFor_steps v).isOk_bind fun lv w hvalue => ?_
  have hroot' : (w.marked none none).rootPageId = 0 := by
    obtain ⟨v', -, -, -, -, htouch⟩ := leafValueFor_spec hs.live.ledger hvalue
    exact htouch.root.trans hroot
  rw [get_bind, if_pos hroot']
  refine Steps.allocate.isOk_bind fun root x _ => ?_
  exact (writeLeaf_steps root _).isOk_bind fun _ _ _ => rfl

/-- The descent for a key above all ends at the rightmost leaf. -/
theorem pathToLeafForKey_rightmost (hread : Readable s (.tree t)) (hclear : s.Clear)
    (hbefore : ∀ x ∈ t.items, x.Before k) (hr : Rightmost t path c id records) :
    pathToLeafForKey k s = .ok path s := by
  have hdescend := hread.outline.path_returns k
  obtain ⟨path', u, hrun, hu⟩ := hdescend.total hclear
  obtain ⟨hq, c', id', left, right, old, ht, hcut, hpath⟩ := hdescend.sound _ _ hrun
  have hlast : c'.after = [] := by
    refine eq_nil_iff_forall_not_mem.mpr fun x hx => ?_
    have hmem : x ∈ t.items := by
      rw [ht, Ctx.plug_items]
      exact mem_append_right _ hx
    have ha := hcut.after x (mem_append_right _ hx)
    have hb := hbefore x hmem
    cases x with
    | sep a => exact absurd (show a ≤ k from hb) (not_le.mpr ha)
    | entry a w => exact absurd (show a < k from hb) (not_lt.mpr (le_of_lt ha))
  obtain ⟨rfl, -⟩ := hr.unique ⟨ht, hlast, hpath⟩
  rw [hrun, hq.eq_of_clear hclear hu]

/-- What is left of an append behind its checks. -/
def appendAlong (path : List PageId) (key value : Bytes) : TreeM Unit := do
  let leafValue ← leafValueFor value
  let split ← putAtPath path key leafValue
  modify fun s => { s with
    appendLastKey := some key
    appendCachedPath := if split then none else some path }

/-- Behind its checks an append puts the record at the end of the rightmost path. -/
theorem treePutAppend_eq_along {v : Bytes} (hread : Readable s (.tree t))
    (hlast : s.LastIn (.tree t)) (htrust : s.Trusts k)
    (hbound : ∀ m, s.appendBound = some m → m < k)
    (hvalid : validateInsertRecordFits k v s = .ok () s) (hclear : s.Clear) :
    ∃ path c id records, Rightmost t path c id records
      ∧ treePutAppend k v s = appendAlong path k v (s.marked s.appendLastKey none) := by
  have hpath := appendPath_returns hread htrust (Session.appended_lt hbound)
  obtain ⟨path, u, hp, hu⟩ := hpath.total hclear
  obtain ⟨hq, c, id, records, hr⟩ := hpath.sound _ _ hp
  obtain rfl := hq.eq_of_clear hclear hu
  refine ⟨path, c, id, records, hr, ?_⟩
  have hmax : checkAppendMax path k u = .ok () u := by
    unfold checkAppendMax
    rw [get_bind]
    split
    · have hreads := maxKeyAtPath_returns hr hread
      obtain ⟨m, w, hm, hw⟩ := hreads.total hclear
      obtain ⟨rfl, hqw⟩ := hreads.sound _ _ hm
      obtain rfl := hqw.eq_of_clear hclear hw
      rw [bind_of_ok hm, ← hr.bound hread hlast, checkAppendKey_passes hbound]
      rfl
    · rfl
  unfold treePutAppend
  rw [get_bind, checkAppendKey_passes (Session.appended_lt hbound), pure_bind, bind_of_ok hvalid,
    get_bind, if_neg hread.root_ne_zero, bind_of_ok hp, bind_of_ok hmax, modify_bind]
  rfl

/-- **An append succeeds when a put does.**  Both store the value, find the same
    leaf and do the same there. -/
theorem treePutAppend_isOk {v : Bytes} (hs : Carries g s retired i) (hlast : s.LastIn i)
    (happ : s.Appendable k) (hbound : ∀ m, s.appendBound = some m → m < k)
    (hvalid : validateInsertRecordFits k v s = .ok () s) (hclear : s.Clear) :
    isOk (treePutAppend k v s) = isOk (treePut k v s) := by
  have hread := hs.readable
  cases i with
  | empty =>
    have hroot : s.rootPageId = 0 := hs.root.symm
    unfold treePutAppend
    rw [get_bind, checkAppendKey_passes (Session.appended_lt hbound), pure_bind, bind_of_ok hvalid,
      get_bind, if_pos hroot]
    exact putAppendFirst_isOk hroot hvalid hs
  | tree t =>
    obtain ⟨path, c, id, records, hr, heq⟩ :=
      treePutAppend_eq_along hread hlast happ.path hbound hvalid hclear
    rw [heq]
    show _ = isOk ((validateInsertRecordFits k v >>= _) (s.marked none none))
    rw [bind_of_ok (validate_unmarked hvalid)]
    refine (leafValueFor_steps v).isOk_bind fun lv w hvalue => ?_
    obtain ⟨v, -, -, -, hl, ht⟩ := leafValueFor_spec hs.live.ledger hvalue
    have hw : Readable (w.marked none none) (.tree t) :=
      (hs.holds.touch ht hl (List.Subset.refl _)).readable.marked none none
    have hwclear : (w.marked none none).Clear := by
      obtain ⟨_, _, hok, hclear'⟩ := leafValueFor_ends hs.live.ledger
        (fits_of_validate hvalid) hclear
      rw [hvalue] at hok
      cases hok
      exact hclear'
    have hbefore := Places.before hread hlast happ.leaf hbound
    rw [get_bind, if_neg hw.root_ne_zero,
      bind_of_ok (pathToLeafForKey_rightmost hw hwclear hbefore hr)]
    exact (putAtPath_steps path k lv).isOk_bind fun _ _ _ => rfl

end Pagedb
