/-
  Pagedb.BTree.Calls — the trees that calls reach.

  `Reached` are the sessions that the tree's own calls lead to, from an empty
  tree over any pages, through flushes and trees opened again on the flushed
  root.  `Kept` is what all of them keep: the session carries an image, and the
  key it remembers as last appended is the last of that image.

    * `TreeCall.kept`  — one call that returns keeps it;
    * `Reached.kept`   — so does every run.
-/
import Pagedb.BTree.BulkBuilt
import Pagedb.BTree.Range
import Pagedb.BTree.Stable

namespace Pagedb

open Lib List

variable {g : Surroundings} {s s' : Session} {retired : List PageId} {i : Image}
  {last : Option Bytes} {path : Option (List PageId)}

/-! ## §1. The append marks -/

theorem forgets {α : Type} {x : TreeM α} {a : α} (hx : Keeps (Session.Marks none none) x)
    (hrun : (invalidateAppendState >>= fun _ => x) s = .ok a s') : s'.Marks none none := by
  obtain ⟨_, w, hreset, hrun⟩ := bind_eq_ok.mp hrun
  obtain rfl := modify_eq_ok.mp hreset
  have h := hx _ (show Session.Marks none none { s with
    appendCachedPath := none, appendLastKey := none } from rfl)
  rwa [hrun] at h

variable {u : Unit} {stop : Bytes}

theorem treePut_forgets {key value : Bytes} (hrun : treePut key value s = .ok u s') :
    s'.Marks none none :=
  forgets (Session.marks_forgetful.putAny_keeps key value) hrun

theorem treeDelete_forgets {key : Bytes} {found : Bool}
    (hrun : treeDelete key s = .ok found s') : s'.Marks none none :=
  forgets ((Session.marks_stable none none).keeps (deleteAny_steps key)) hrun

theorem treePutBatch_forgets {pairs : List (Bytes × Bytes)} (hrun : treePutBatch pairs s = .ok u s') :
    s'.Marks none none :=
  forgets (Session.marks_forgetful.putBatchFrom_keeps pairs none) hrun

theorem treeDeleteBatch_forgets {keys : List Bytes} (hrun : treeDeleteBatch keys s = .ok u s') :
    s'.Marks none none :=
  forgets ((Session.marks_stable none none).keeps (deleteBatchAny_steps keys)) hrun

/-! ## §2. Scans that fail -/

theorem collectKeysBatchInRange_quiet {s₀ : Session} (start stop : Bytes) (limit : Nat) :
    Keeps s₀.Quiet (collectKeysBatchInRange start stop limit) := by
  rw [ScanCall.collectKeysBatchInRange_eq]
  exact Reading.quiet fun _ => (ScanCall.keysBatchInRange start stop limit).run_reading

theorem collectRevBatchBefore_quiet {s₀ : Session} (before : Option Bytes) (limit : Nat) :
    Keeps s₀.Quiet (collectRevBatchBefore before limit) := by
  rw [ScanCall.collectRevBatchBefore_eq]
  exact Reading.quiet fun _ => (ScanCall.revBatchBefore before limit).run_reading

theorem Forgetful.deleteRangeFrom_keeps {I : Session → Prop} (hI : Forgetful I) (turns : Nat) :
    ∀ (cursor : Bytes) (removed : Nat), Keeps I (deleteRangeFrom stop turns cursor removed) := by
  induction turns with
  | zero => exact fun _ _ => Keeps.throw _
  | succ turns ih =>
    intro cursor removed
    unfold deleteRangeFrom
    refine Keeps.bind (fun s hs => hI.quiet hs ?_) fun keys => ?_
    · exact collectKeysBatchInRange_quiet cursor stop _ s (Session.Quiet.refl s)
    · cases keys.getLast? with
      | none => exact Keeps.pure _
      | some last =>
        refine (hI.reset.bind fun _ => hI.keeps (deleteBatchAny_steps keys)).bind fun _ => ?_
        exact (Keeps.pure _).ite (ih _ _)

/-! ## §3. What every call keeps -/

/-- The session carries an image, and what it remembers as last appended is the
    last record there. -/
def Session.Kept (s : Session) : Prop :=
  ∃ g retired i, Carries g s retired i ∧ s.LastIn i

theorem Session.Kept.of_marks (hs : Carries g s retired i) (hm : s.Marks none path) : s.Kept := by
  refine ⟨g, retired, i, hs, fun a ha => ?_⟩
  rw [hm.lastKey] at ha
  cases ha

theorem Session.Kept.quiet (h : s.Kept) (hq : s.Quiet s') : s'.Kept := by
  obtain ⟨g, retired, i, hs, hlast⟩ := h
  refine ⟨g, retired, i, hs.quiet hq, fun a ha => hlast a ?_⟩
  obtain ⟨faults, rfl⟩ := hq
  exact ha

theorem treeDeleteBatch_kept {keys : List Bytes} {u : Unit} (h : s.Kept)
    (hrun : treeDeleteBatch keys s = .ok u s') : s'.Kept := by
  obtain ⟨g, retired, i, hs, -⟩ := h
  obtain ⟨i', hs', -⟩ := (treeDeleteBatch_returns hs).sound _ _ hrun
  exact .of_marks hs' (treeDeleteBatch_forgets hrun)

theorem deleteRangeFrom_kept (turns : Nat) :
    ∀ {cursor : Bytes} {removed n : Nat} {s s' : Session}, s.Kept →
      deleteRangeFrom stop turns cursor removed s = .ok n s' → s'.Kept := by
  induction turns with
  | zero =>
    intro cursor removed n s s' _ hrun
    cases hrun
  | succ turns ih =>
    intro cursor removed n s s' hs hrun
    unfold deleteRangeFrom at hrun
    obtain ⟨keys, u, hkeys, hrun⟩ := bind_eq_ok.mp hrun
    have hq := collectKeysBatchInRange_quiet cursor stop DELETE_RANGE_CHUNK s (Session.Quiet.refl s)
    rw [hkeys] at hq
    have hu := hs.quiet hq
    cases hlast : keys.getLast? with
    | none =>
      rw [hlast] at hrun
      obtain ⟨-, rfl⟩ := pure_eq_ok.mp hrun
      exact hu
    | some last =>
      rw [hlast] at hrun
      obtain ⟨_, w, hbatch, hrun⟩ := bind_eq_ok.mp hrun
      have hw := treeDeleteBatch_kept hu hbatch
      split_ifs at hrun with hshort
      · obtain ⟨-, rfl⟩ := pure_eq_ok.mp hrun
        exact hw
      · exact ih hw hrun

theorem treeDeleteRange_kept {start : Bytes} {n : Nat} (h : s.Kept)
    (hrun : treeDeleteRange start stop s = .ok n s') : s'.Kept := by
  unfold treeDeleteRange at hrun
  rw [get_bind] at hrun
  split at hrun
  · obtain ⟨-, rfl⟩ := pure_eq_ok.mp hrun
    exact h
  · exact deleteRangeFrom_kept _ h hrun

theorem materializeDirty_kept {hash : HashOrder} (h : s.Kept)
    (hrun : materializeDirty hash s = .ok u s') : s'.Kept := by
  obtain ⟨g, retired, i, hs, hlast⟩ := h
  have hm := (Session.marks_stable _ _).keeps (flushDirtyLeaves_steps hash) s s.marks_self
  rw [show flushDirtyLeaves hash s = .ok u s' from hrun] at hm
  have hkey : s'.appendLastKey = s.appendLastKey := hm.lastKey
  cases i with
  | tree t =>
    obtain ⟨t', retired', ht', hitems, -, -⟩ := flushDirtyLeaves_spec hs.holds hrun
    refine ⟨g, retired', .tree t', .of_holds ht', fun a ha => ?_⟩
    obtain ⟨front, v, hfront⟩ := hlast a (hkey ▸ ha)
    exact ⟨front, v, hitems.trans hfront⟩
  | empty =>
    obtain ⟨i', retired', hs', -, -, -⟩ := materializeDirty_spec hs hrun
    refine ⟨g, retired', i', hs', fun a ha => ?_⟩
    obtain ⟨front, v, hfront⟩ := hlast a (hkey ▸ ha)
    cases front <;> cases hfront

/-- Batches that were taken in were in order, and their records fit. -/
theorem pushBatches_accepted (batches : List (List (Bytes × Bytes))) :
    ∀ {st st' : Loading} {records : List (Bytes × Bytes)} {u : Unit}, Taken g retired st records →
      Ascending records → pushBatches batches st = .ok u st' →
      Ascending (records ++ batches.flatten)
        ∧ ∀ r ∈ batches.flatten, recordFits st.tree.pageSize r = true := by
  induction batches with
  | nil =>
    intro st st' records u _ hasc _
    rw [flatten_nil, append_nil]
    exact ⟨hasc, nofun⟩
  | cons batch batches ih =>
    intro st st' records u hs hasc hrun
    obtain ⟨_, w, hbatch, hrest⟩ := bind_eq_ok.mp hrun
    have hgood : Ascending (records ++ batch)
        ∧ ∀ r ∈ batch, recordFits st.tree.pageSize r = true := by
      by_contra hbad
      obtain ⟨e, -, herror⟩ := pushBatch_rejected hs hasc hbad
      rw [hbatch] at herror
      cases herror
    obtain ⟨hw, ws, ht⟩ := (pushBatch_returns hs hgood.1 hgood.2).sound _ _ hbatch
    obtain ⟨hasc', hfits'⟩ := ih hw hgood.1 hrest
    rw [ht.pageSize] at hfits'
    rw [flatten_cons, ← append_assoc]
    refine ⟨hasc', fun r hr => ?_⟩
    rcases mem_append.mp hr with hr | hr
    · exact hgood.2 r hr
    · exact hfits' r hr

/-- **What a bulk load returns from is loaded.** -/
theorem bulkLoad_sound {batches : List (List (Bytes × Bytes))} (h : s.Kept)
    (hrun : bulkLoad batches s = .ok u s') :
    s'.Marks none s.appendCachedPath ∧ ∃ g retired i, Carries g s' retired i
      ∧ LoadedAs s' batches.flatten i ∧ s'.Uncached := by
  obtain ⟨g, retired, i, hs, hlast⟩ := h
  have hroot : s.rootPageId = 0 := by
    by_contra hne
    unfold bulkLoad at hrun
    rw [get_bind, if_neg hne] at hrun
    cases hrun
  obtain rfl := hs.root_eq_zero.mp hroot
  have hkey : s.appendLastKey = none := by
    rw [Option.eq_none_iff_forall_not_mem]
    intro a ha
    obtain ⟨front, v, hfront⟩ := hlast a ha
    cases front <;> cases hfront
  have hgood : Ascending batches.flatten
      ∧ ∀ r ∈ batches.flatten, recordFits s.pageSize r = true := by
    unfold bulkLoad at hrun
    rw [get_bind, if_pos hroot] at hrun
    unfold withLoader at hrun
    cases hload : (pushBatches batches >>= fun _ => finish) ⟨s, BulkLoader.new⟩ with
    | error e st =>
      rw [hload] at hrun
      cases hrun
    | ok a st =>
      obtain ⟨_, w, hbatches, -⟩ := bind_eq_ok.mp hload
      have := pushBatches_accepted batches (taken_new hs) List.Pairwise.nil hbatches
      rwa [nil_append] at this
  have hm := (Session.marks_stable none s.appendCachedPath).bulkLoad_keeps batches s
    (by rw [← hkey]; exact s.marks_self)
  rw [hrun] at hm
  obtain ⟨i, hs', hloaded⟩ := (bulkLoad_returns hs hgood.1 hgood.2).sound _ _ hrun
  exact ⟨hm, g, retired, i, hs', hloaded⟩

/-- A readable tree on distinct pages keeps the books when it is opened: everyone
    else owns what neither the tree nor the source has. -/
theorem Readable.opened {base : Session} {root next : PageId} {threshold : Option PageId}
    {cache consumed : List PageId}
    (hread : Readable (base.reopen root next threshold cache consumed) i) (hpages : i.pages.Nodup)
    (hfour : ∀ p ∈ i.pages, 4 ≤ p) (hapart : ∀ p ∈ i.pages, p < next ∧ p ∉ cache)
    (hsource : SourceOk (max next 4) cache) :
    ∃ g, Carries g (base.reopen root next threshold cache consumed) [] i := by
  refine ⟨⟨consumed ++ cache, (List.range' 4 (max next 4 - 4)).filter fun p =>
      !(i.pages ++ cache).contains p⟩,
    ⟨⟨fun p hp => absurd hp (AList.notMem_empty _), fun p hp => absurd hp (AList.notMem_empty _),
      fun p _ => AList.notMem_empty _, hread.paged, fun p => Iff.rfl,
      fun p path hp => (by cases hp), List.Perm.refl _⟩,
      hread.ordered, fun r hr => (hread.values r hr).1, ⟨le_max_right _ _, ?_, List.Perm.refl _⟩⟩,
    hread.rep, hread.root⟩
  rw [nil_append, nil_append]
  show ((i.ids ++ (valuePages i.items ++ (List.range' 4 (max next 4 - 4)).filter fun p =>
      !(i.pages ++ cache).contains p)) ++ cache).Perm (List.range' 4 (max next 4 - 4))
  rw [← append_assoc i.ids, show i.ids ++ valuePages i.items = i.pages from rfl]
  refine (perm_ext_iff_of_nodup ?_ nodup_range').mpr fun p => ?_
  · refine nodup_append.mpr ⟨nodup_append.mpr ⟨hpages, (nodup_range').filter _, ?_⟩,
      hsource.nodup, ?_⟩
    · rintro p hp q hq rfl
      have := (mem_filter.mp hq).2
      simp [hp] at this
    · rintro p hp q hq rfl
      rcases mem_append.mp hp with hp | hp
      · exact (hapart p hp).2 hq
      · have := (mem_filter.mp hp).2
        simp [hq] at this
  · rw [mem_append, mem_append, mem_filter, mem_range'_1, Bool.not_eq_true',
      contains_eq_mem, decide_eq_false_iff_not, mem_append]
    constructor
    · rintro ((hp | hp) | hp)
      · have h4 := hfour p hp
        have hlt := (hapart p hp).1
        unfold PageId at *
        omega
      · exact hp.1
      · have h4 := hsource.four p hp
        have hlt := hsource.below p hp
        unfold PageId at *
        omega
    · intro hp
      by_cases hmem : p ∈ i.pages ∨ p ∈ cache
      · exact hmem.elim (fun h => Or.inl (Or.inl h)) Or.inr
      · exact Or.inl (Or.inr ⟨hp, hmem⟩)

/-- A flushed tree can be opened again with a source of pages it does not use. -/
theorem Carries.reopened (hs : Carries g s retired i) (hfresh : s.freshLeaves = ∅)
    (hdirty : s.dirtyLeaves = ∅) {next : PageId} {cache : List PageId}
    (hsource : SourceOk (max next 4) cache) (hapart : ∀ p ∈ i.pages, p < next ∧ p ∉ cache)
    (threshold : Option PageId) (consumed : List PageId) :
    ∃ g', Carries g' (s.reopen s.rootPageId next threshold cache consumed) [] i := by
  have hl := hs.live.ledger
  have hpages : i.pages.Nodup := by
    have hnodup := hl.nodup
    rw [nil_append, ← append_assoc] at hnodup
    exact hnodup.of_append_left
  have hfour : ∀ p ∈ i.pages, 4 ≤ p := by
    intro p hp
    refine (hl.bounds ?_).1
    rw [nil_append, ← append_assoc]
    exact mem_append_left _ hp
  exact (hs.reopen hfresh hdirty next threshold cache consumed).opened hpages hfour hapart hsource

/-! ## §4. Calls -/

/-- A call of the tree. -/
inductive TreeCall where
  | put (key value : Bytes)
  | putAppend (key value : Bytes)
  | putBatch (pairs : List (Bytes × Bytes))
  | delete (key : Bytes)
  | deleteBatch (keys : List Bytes)
  | deleteRange (start stop : Bytes)
  | bulkLoad (batches : List (List (Bytes × Bytes)))
  | flush
  deriving DecidableEq, Repr

namespace TreeCall

/-- The program of a call, its answer dropped. -/
def run (hash : HashOrder) : TreeCall → TreeM Unit
  | put key value => treePut key value
  | putAppend key value => treePutAppend key value
  | putBatch pairs => treePutBatch pairs
  | delete key => do
    let _ ← treeDelete key
    pure ()
  | deleteBatch keys => treeDeleteBatch keys
  | deleteRange start stop => do
    let _ ← treeDeleteRange start stop
    pure ()
  | bulkLoad batches => Pagedb.bulkLoad batches
  | flush => materializeDirty hash

/-- The key a call appends. -/
def appended : TreeCall → Option Bytes
  | putAppend key _ => some key
  | _ => none

/-- What the proofs ask of the session a call is made in. -/
def Safe (s : Session) : TreeCall → Prop
  | putAppend key _ => s.Appendable key
  | _ => True

/-- **A call that returns keeps the books.** -/
theorem kept {hash : HashOrder} {c : TreeCall} {u : Unit} (h : s.Kept) (hsafe : c.Safe s)
    (hrun : c.run hash s = .ok u s') : s'.Kept := by
  cases c with
  | put key value =>
    obtain ⟨g, retired, i, hs, -⟩ := h
    obtain ⟨i', hs', -⟩ := treePut_spec hs hrun
    exact .of_marks hs' (treePut_forgets hrun)
  | putAppend key value =>
    obtain ⟨g, retired, i, hs, hlast⟩ := h
    obtain ⟨i', hs', -, hlast'⟩ := treePutAppend_spec hs hlast hsafe hrun
    exact ⟨g, retired, i', hs', hlast'⟩
  | putBatch pairs =>
    obtain ⟨g, retired, i, hs, -⟩ := h
    obtain ⟨i', hs', -⟩ := treePutBatch_spec hs hrun
    exact .of_marks hs' (treePutBatch_forgets hrun)
  | delete key =>
    obtain ⟨found, w, hdelete, hend⟩ := bind_eq_ok.mp hrun
    obtain ⟨-, rfl⟩ := pure_eq_ok.mp hend
    obtain ⟨g, retired, i, hs, -⟩ := h
    obtain ⟨i', hs', -⟩ := treeDelete_spec hs hdelete
    exact .of_marks hs' (treeDelete_forgets hdelete)
  | deleteBatch keys => exact treeDeleteBatch_kept h hrun
  | deleteRange start stop =>
    obtain ⟨n, w, hrange, hend⟩ := bind_eq_ok.mp hrun
    obtain ⟨-, rfl⟩ := pure_eq_ok.mp hend
    exact treeDeleteRange_kept h hrange
  | bulkLoad batches =>
    obtain ⟨hm, g, retired, i, hs', -⟩ := bulkLoad_sound h hrun
    exact .of_marks hs' hm
  | flush => exact materializeDirty_kept h hrun

/-- A call other than an append keeps what no page step breaks, also one that fails. -/
theorem keeps {I : Session → Prop} (hI : Forgetful I) (hash : HashOrder) (c : TreeCall)
    (hplain : c.appended = none) : Keeps I (c.run hash) := by
  cases c with
  | put key value => exact hI.treePut_keeps key value
  | putAppend key value => cases hplain
  | putBatch pairs => exact hI.reset.bind fun _ => hI.putBatchFrom_keeps pairs none
  | delete key => exact (hI.reset.bind fun _ => hI.keeps (deleteAny_steps key)).bind fun _ => Keeps.pure _
  | deleteBatch keys => exact hI.reset.bind fun _ => hI.keeps (deleteBatchAny_steps keys)
  | deleteRange start stop =>
    refine Keeps.bind (Keeps.get.bind fun s => (Keeps.pure _).ite ?_) fun _ => Keeps.pure _
    exact hI.deleteRangeFrom_keeps _ start 0
  | bulkLoad batches => exact hI.bulkLoad_keeps batches
  | flush => exact hI.keeps (flushDirtyLeaves_steps hash)

end TreeCall

/-- The sessions that calls lead to, each with the key last appended since its
    tree was opened. -/
inductive Reached (hash : HashOrder) : Session → Option Bytes → Prop where
  /-- An empty tree over any pages. -/
  | opened (base : Session) (next : PageId) (threshold : Option PageId)
      (cache consumed : List PageId) (hsource : SourceOk (max next 4) cache) :
      Reached hash (base.reopen 0 next threshold cache consumed) none
  /-- A call that returned. -/
  | called {s s' : Session} {last : Option Bytes} {u : Unit} (c : TreeCall)
      (h : Reached hash s last) (hsafe : c.Safe s) (hrun : c.run hash s = .ok u s') :
      Reached hash s' (c.appended.or last)
  /-- An append that was refused. -/
  | refused {s s' : Session} {last : Option Bytes} (key value : Bytes) (h : Reached hash s last)
      (hsafe : s.Trusts key)
      (hrun : treePutAppend key value s = .error .appendNotMonotonic s') : Reached hash s' last
  /-- A tree opened again on a flushed root, over a source of pages it does not use. -/
  | reopened {s : Session} {last : Option Bytes} (next : PageId) (threshold : Option PageId)
      (cache consumed : List PageId) (h : Reached hash s last) (hfresh : s.freshLeaves = ∅)
      (hdirty : s.dirtyLeaves = ∅) (hsource : SourceOk (max next 4) cache)
      (hapart : ∀ i, Readable s i → ∀ p ∈ i.pages, p < next ∧ p ∉ cache) :
      Reached hash (s.reopen s.rootPageId next threshold cache consumed) none

/-- **Every reached session keeps the books.** -/
theorem Reached.kept {hash : HashOrder} (h : Reached hash s last) : s.Kept := by
  induction h with
  | opened base next threshold cache consumed hsource =>
    obtain ⟨g, hs⟩ : ∃ g, Carries g (base.reopen 0 next threshold cache consumed) [] .empty :=
      carries_empty hsource
    exact ⟨g, [], .empty, hs, fun a ha => (by cases ha)⟩
  | called c _ hsafe hrun ih => exact c.kept ih hsafe hrun
  | @refused s s' last key value _ hsafe hrun ih =>
    obtain ⟨g, retired, i, hs, hlast⟩ := ih
    -- only a key that is not above the one it is compared with is refused
    obtain ⟨m, hm, hk⟩ : ∃ m, s.appendBound = some m ∧ key ≤ m := by
      by_contra hnone
      exact treePutAppend_not_refused hs.readable hlast hsafe
        (fun m hm => not_le.mp fun hk => hnone ⟨m, hm, hk⟩) hrun rfl
    obtain ⟨e, w, herror, hq, -⟩ :=
      treePutAppend_blocked (v := value) hs.readable hlast hsafe hm hk
    rw [hrun] at herror
    cases herror
    exact Session.Kept.quiet ⟨g, retired, i, hs, hlast⟩ hq
  | reopened next threshold cache consumed _ hfresh hdirty hsource hapart ih =>
    obtain ⟨g, retired, i, hs, -⟩ := ih
    obtain ⟨g', hs'⟩ := hs.reopened hfresh hdirty hsource (hapart i hs.readable) threshold consumed
    exact ⟨g', [], i, hs', fun a ha => (by cases ha)⟩

end Pagedb
