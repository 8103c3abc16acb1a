/-
  Pagedb.BTree.Stable — what no page step breaks.

  A property that survives an await, the write of a page and a change of the other
  fields (`Stable`) survives all that is made of page steps, also what fails; and
  what does not encode a node never fails for its size (`Tidy`).

  The append marks are such a property (`Session.marks_stable`).
-/
import Pagedb.BTree.Append
import Pagedb.BTree.Bulk

namespace Pagedb

open Lib List

variable {I : Session → Prop} {s s' : Session} {last : Option Bytes}
  {path : Option (List PageId)} {full : Bool}

/-! ## §1. Stable properties -/

/-- A property of the pages, the append marks and the pages to come that no step
    breaks; the end of the file only grows, and the source is only drawn from. -/
structure Stable (I : Session → Prop) : Prop where
  quiet : ∀ {s s' : Session}, I s → s.Quiet s' → I s'
  fields : ∀ {s s' : Session}, I s → s'.pager = s.pager → s'.pageSize = s.pageSize →
    s'.appendLastKey = s.appendLastKey → s'.appendCachedPath = s.appendCachedPath →
    s.nextPageId ≤ s'.nextPageId → s'.cache ⊆ s.cache → I s'
  write : ∀ {s : Session} (id : PageId) {page : Page}, I s → s.Allows page →
    I { s with pager := s.pager.write id page }

/-- A program that keeps `I` and never fails for the size of a node. -/
abbrev Tidy {α : Type} (I : Session → Prop) (x : TreeM α) : Prop :=
  Guarded I (fun e => e ≠ .payloadTooLarge) x

/-- The session remembers this key and this path. -/
def Session.Marks (last : Option Bytes) (path : Option (List PageId)) (s : Session) : Prop :=
  s.marked last path = s

theorem Session.Marks.lastKey (h : s.Marks last path) : s.appendLastKey = last := by
  rw [← show s.marked last path = s from h]
  rfl

theorem Session.Marks.cachedPath (h : s.Marks last path) : s.appendCachedPath = path := by
  rw [← show s.marked last path = s from h]
  rfl

theorem Session.marks_self (s : Session) : s.Marks s.appendLastKey s.appendCachedPath := rfl

theorem Session.Marks.of_eq (h : s.Marks last path) (hlast : s'.appendLastKey = s.appendLastKey)
    (hpath : s'.appendCachedPath = s.appendCachedPath) : s'.Marks last path := by
  unfold Session.Marks Session.marked
  rw [← h.lastKey, ← Session.Marks.cachedPath h, ← hlast, ← hpath]

theorem Session.marks_stable (last : Option Bytes) (path : Option (List PageId)) :
    Stable (Session.Marks last path) where
  quiet := by
    rintro s _ h ⟨faults, rfl⟩
    exact Session.Marks.of_eq h rfl rfl
  fields := fun h _ _ hlast hpath _ _ => Session.Marks.of_eq h hlast hpath
  write := fun _ _ h _ => Session.Marks.of_eq h rfl rfl

theorem repointEntries_map_fst (old new : PageId) (entries : List (Bytes × PageId)) :
    (repointEntries old new entries).map Prod.fst = entries.map Prod.fst := by
  induction entries with
  | nil => rfl
  | cons e entries ih =>
    unfold repointEntries
    split_ifs with he
    · rfl
    · rw [map_cons, map_cons, ih]

theorem Internal.repoint_keys (node : Internal) (old new : PageId) :
    (node.repoint old new).entries.map Prod.fst = node.entries.map Prod.fst := by
  unfold Internal.repoint
  by_cases hfirst : node.leftmostChild = old
  · rw [if_pos hfirst]
  · rw [if_neg hfirst]
    exact repointEntries_map_fst old new node.entries

namespace Stable

/-! ## §2. Page steps -/

variable {α : Type} {x : TreeM α}

variable (hI : Stable I)

include hI

/-- A page is written between two awaits. -/
theorem writePage_at (id : PageId) {page : Page} (hs : I s) (hallow : s.Allows page) :
    I (endState (writePage id page s)) := by
  unfold writePage
  have hq := await_quiet s (Session.Quiet.refl s)
  cases hr : await s with
  | error e w =>
    rw [hr] at hq
    rw [bind_of_error hr]
    exact hI.quiet hs hq
  | ok a w =>
    rw [hr] at hq
    have hallow' : w.Allows page := by
      obtain ⟨faults, rfl⟩ := hq
      cases page with
      | internal node => exact hallow
      | _ => trivial
    rw [bind_of_ok hr, modify_bind]
    exact hI.quiet (hI.write id (hI.quiet hs hq) hallow') (await_quiet _ (Session.Quiet.refl _))

theorem allocatePage_keeps : Keeps I allocatePage := by
  intro s hs
  rcases allocatePage_cases s with hpanic | ⟨id, t, hok, ht⟩
  · rw [hpanic]
    exact hs
  · rw [hok]
    rcases ht with rfl | rfl | rfl
    · exact hI.fields hs rfl rfl rfl rfl le_rfl (List.Subset.refl _)
    · exact hI.fields hs rfl rfl rfl rfl le_rfl (dropLast_subset _)
    · exact hI.fields hs rfl rfl rfl rfl (Nat.le_succ _) (List.Subset.refl _)

theorem writeInternal_keeps (id : PageId) (node : Internal) :
    Keeps I (writeInternal id node) := by
  intro s hs
  unfold writeInternal
  rw [get_bind]
  split_ifs with hfits
  · exact hI.writePage_at id hs (Session.allows_of_fits hfits)
  · exact hs

/-- A branch is copied with one link changed, at the size it had. -/
theorem cowInternalRepointingChild_keeps (old new childOld childNew : PageId) :
    Keeps I (cowInternalRepointingChild old new childOld childNew) := by
  intro s hs
  unfold cowInternalRepointingChild
  obtain ⟨faults, -, hend⟩ := (readInternal_reading old).keeps s (Session.Reads.refl s)
  cases hread : readInternal old s with
  | error e w =>
    rw [hread] at hend
    rw [bind_of_error hread]
    exact hI.quiet hs ⟨faults, hend⟩
  | ok node w =>
    have hpage := (readInternal_reading old).value s _ w (Session.Reads.refl s) hread
    rw [hread] at hend
    obtain rfl : w = _ := hend
    rw [bind_of_ok hread]
    exact hI.writePage_at new (hI.quiet hs ⟨faults, rfl⟩)
      (Or.inr ⟨old, node, childOld, childNew, hpage, rfl⟩)

/-- **Page steps keep what is stable.** -/
theorem steps_keeps (h : Steps full x) : Keeps I x := by
  induction h with
  | pure a => exact Keeps.pure a
  | throw _ => exact Keeps.throw _
  | bind _ _ ihx ihf => exact ihx.bind ihf
  | @tryCatch _ x f hx _ ihx ihf =>
    intro s hs
    have hend := ihx s hs
    show I (endState (EStateM.tryCatch x f s))
    unfold EStateM.tryCatch
    cases hr : x s with
    | ok a t =>
      rw [hr] at hend
      exact hend
    | error e t =>
      rw [hr] at hend
      exact ihf e ((@Steps.confined none none _ _ _ hx).fails s e t hr) t hend
  | get _ _ ih => exact Keeps.get.bind ih
  | change hfixed _ =>
    intro s hs
    obtain ⟨a, t, hok, hfix⟩ := hfixed s
    rw [hok]
    injection hfix with hpager hfix
    injection hfix with hsize hfix
    injection hfix with hlast hfix
    injection hfix with hpath hfix
    injection hfix with hnext hcache
    exact hI.fields hs hpager hsize hlast hpath (ge_of_eq hnext) (hcache ▸ List.Subset.refl _)
  | await => exact fun s hs => hI.quiet hs (await_quiet s (Session.Quiet.refl s))
  | allocate => exact hI.allocatePage_keeps
  | write id hallow => exact fun s hs => hI.writePage_at id hs (hallow s)
  | writeInternal id node _ => exact hI.writeInternal_keeps id node
  | repoint old new childOld childNew =>
    exact hI.cowInternalRepointingChild_keeps old new childOld childNew

theorem keeps (h : Steps true x) : Keeps I x :=
  hI.steps_keeps h

theorem tidy (h : Steps false x) : Tidy I x where
  keeps := hI.steps_keeps h
  fails := by
    rintro s e t - heq rfl
    cases (@Steps.confined none none _ _ _ h).fails s _ t heq

/-! ## §3. Bulk loads -/

omit hI in
theorem stepTree_keeps (hx : Keeps I x) : Keeps (fun st => I st.tree) (stepTree x) := by
  intro st hst
  have h := hx st.tree hst
  unfold stepTree
  cases hr : x st.tree with
  | ok a s => rwa [hr] at h
  | error e s => rwa [hr] at h

omit hI in
theorem stepLoader_keeps (f : BulkLoader → BulkLoader) :
    Keeps (fun st => I st.tree) (stepLoader f) :=
  Keeps.modify fun _ h => h

/-- A node of the loader goes to a page of its own. -/
theorem writeBranch_keeps (f : BulkLoader → BulkLoader) (node : Internal)
    {next : PageId → LoadM α} (hnext : ∀ id, Keeps (fun st => I st.tree) (next id)) :
    Keeps (fun st => I st.tree) (do
      stepLoader f
      let id ← stepTree allocatePage
      stepTree (writeInternal id node)
      stepTree await
      next id) := by
  refine (stepLoader_keeps f).bind fun _ => ?_
  refine (stepTree_keeps hI.allocatePage_keeps).bind fun id => ?_
  refine (stepTree_keeps (hI.writeInternal_keeps id _)).bind fun _ => ?_
  exact (stepTree_keeps (hI.keeps .await)).bind fun _ => hnext id

theorem pushChildFrom_keeps (turns : Nat) : ∀ (level : Nat) (child : Child),
    Keeps (fun st => I st.tree) (pushChildFrom turns level child) := by
  induction turns with
  | zero => exact fun _ _ => Keeps.throw _
  | succ turns ih =>
    intro level child
    unfold pushChildFrom
    refine (stepLoader_keeps _).bind fun _ => Keeps.get.bind fun st => ?_
    cases st.loader.levels[level]? with
    | none => exact Keeps.throw _
    | some accum =>
      dsimp only
      cases accum.tryPush child (bodyCapacity st.tree.pageSize) with
      | error e => exact Keeps.throw _
      | ok pushed =>
        cases pushed with
        | some pushed => exact stepLoader_keeps _
        | none =>
          obtain ⟨node, taken⟩ := accum.takeNode
          cases node with
          | none => exact Keeps.throw _
          | some node => exact hI.writeBranch_keeps _ _ fun id => ih _ _

theorem closeLeaf_keeps (more : Bool) :
    Keeps (fun st => I st.tree) (closeLeaf more) := by
  unfold closeLeaf
  refine Keeps.bind ?_ fun id => Keeps.bind ?_ fun right => Keeps.get.bind fun st => ?_
  · unfold takeLeafPage
    refine Keeps.get.bind fun st => ?_
    cases st.loader.leafPageId with
    | some id => exact (stepLoader_keeps _).bind fun _ => Keeps.pure _
    | none => exact stepTree_keeps hI.allocatePage_keeps
  · refine Keeps.ite ?_ (Keeps.pure _)
    refine (stepTree_keeps hI.allocatePage_keeps).bind fun id => ?_
    exact (stepLoader_keeps _).bind fun _ => Keeps.pure _
  · refine (stepLoader_keeps _).bind fun _ => ?_
    refine (stepTree_keeps (hI.keeps (writeLeaf_steps id _))).bind fun _ => ?_
    refine (stepTree_keeps (hI.keeps .await)).bind fun _ => ?_
    refine (stepLoader_keeps _).bind fun _ => Keeps.get.bind fun st => ?_
    exact hI.pushChildFrom_keeps _ _ _

theorem appendRecord_keeps (key value : Bytes) :
    Keeps (fun st => I st.tree) (appendRecord key value) := by
  unfold appendRecord
  refine (stepTree_keeps (hI.keeps (leafValueFor_steps value))).bind fun lv => ?_
  refine Keeps.get.bind fun st => ?_
  dsimp only
  cases projectedEncodedSize st.loader key (leafRecordCost key.length lv) with
  | error e => exact Keeps.throw _
  | ok projected =>
    dsimp only
    exact Keeps.ite ((hI.closeLeaf_keeps true).bind fun _ => stepLoader_keeps _)
      (stepLoader_keeps _)

omit hI in
theorem validateOrder_keeps (batch : List (Bytes × Bytes)) :
    ∀ prior, Keeps I (validateOrder prior batch) := by
  induction batch with
  | nil => exact fun _ => Keeps.pure _
  | cons r batch ih => exact fun prior => Keeps.ite (Keeps.throw _) (ih _)

omit hI in
theorem validateSizes_steps (batch : List (Bytes × Bytes)) : Steps true (validateSizes batch) := by
  induction batch with
  | nil => exact .pure _
  | cons r batch ih => exact (validateInsertRecordFits_steps r.1 r.2).bind fun _ => ih

theorem appendRecords_keeps (batch : List (Bytes × Bytes)) :
    Keeps (fun st => I st.tree) (appendRecords batch) := by
  induction batch with
  | nil => exact Keeps.pure _
  | cons r batch ih => exact (hI.appendRecord_keeps r.1 r.2).bind fun _ => ih

theorem pushBatches_keeps (batches : List (List (Bytes × Bytes))) :
    Keeps (fun st => I st.tree) (pushBatches batches) := by
  induction batches with
  | nil => exact Keeps.pure _
  | cons batch batches ih =>
    refine Keeps.bind (Keeps.get.bind fun st => ?_) fun _ => ih
    refine Keeps.bind (stepTree_keeps ?_) fun _ => (hI.appendRecords_keeps batch).bind fun _ =>
      stepTree_keeps (hI.keeps .await)
    exact (validateOrder_keeps batch _).bind fun _ => hI.keeps (validateSizes_steps batch)

theorem setRoot_keeps (root : PageId) : Keeps I (setRoot root) :=
  Keeps.modify fun _ h => hI.fields h rfl rfl rfl rfl le_rfl (List.Subset.refl _)

theorem finishFrom_keeps (turns : Nat) : ∀ level,
    Keeps (fun st => I st.tree) (finishFrom turns level) := by
  induction turns with
  | zero => exact fun _ => Keeps.throw _
  | succ turns ih =>
    intro level
    unfold finishFrom
    refine Keeps.get.bind fun st => ?_
    cases st.loader.levels[level]? with
    | none => exact Keeps.throw _
    | some accum =>
      dsimp only
      cases accum.soleChild with
      | some root => exact stepTree_keeps (hI.setRoot_keeps root)
      | none =>
        obtain ⟨node, taken⟩ := accum.takeNode
        cases node with
        | none => exact Keeps.throw _
        | some node =>
          refine hI.writeBranch_keeps _ _ fun id => ?_
          refine Keeps.bind (Keeps.get.bind fun st => ?_) fun _ => ih _
          exact hI.pushChildFrom_keeps _ _ _

theorem finish_keeps : Keeps (fun st => I st.tree) finish := by
  unfold finish
  refine Keeps.bind ?_ fun _ => Keeps.get.bind fun st => ?_
  · exact Keeps.get.bind fun st => (Keeps.pure _).ite (hI.closeLeaf_keeps false)
  · refine (Keeps.pure _).ite (Keeps.ite ?_ (hI.finishFrom_keeps _ _))
    exact stepTree_keeps (hI.setRoot_keeps _)

theorem bulkLoad_keeps (batches : List (List (Bytes × Bytes))) :
    Keeps I (bulkLoad batches) := by
  unfold bulkLoad
  refine Keeps.get.bind fun s₀ => Keeps.ite ?_ (Keeps.throw _)
  intro s hs
  have h := (hI.pushBatches_keeps batches).bind (fun _ => hI.finish_keeps) ⟨s, BulkLoader.new⟩ hs
  unfold withLoader
  cases hr : (pushBatches batches >>= fun _ => finish) ⟨s, BulkLoader.new⟩ with
  | ok a st => rwa [hr] at h
  | error e st => rwa [hr] at h

end Stable

/-! ## §4. Calls that forget the append position -/

/-- A stable property that forgetting the append position keeps as well. -/
structure Forgetful (I : Session → Prop) : Prop extends Stable I where
  path : ∀ {s : Session}, I s → I { s with appendCachedPath := none }
  reset : Keeps I invalidateAppendState

namespace Forgetful

theorem putFirst_keeps (hI : Forgetful I) (key : Bytes) (value : LeafValue) :
    Keeps I (putFirst key value) := by
  unfold putFirst
  refine hI.allocatePage_keeps.bind fun id => ?_
  refine (hI.keeps (writeLeaf_steps id _)).bind fun _ => Keeps.modify fun s hs => ?_
  exact hI.fields (hI.path hs) rfl rfl rfl rfl le_rfl (List.Subset.refl _)

/-- What `put` does behind the reset. -/
theorem putAny_keeps (hI : Forgetful I) (key value : Bytes) : Keeps I (do
    validateInsertRecordFits key value
    let leafValue ← leafValueFor value
    if (← get).rootPageId = 0 then putFirst key leafValue
    else do
      let path ← pathToLeafForKey key
      let _ ← putAtPath path key leafValue
      pure ()) := by
  refine (hI.keeps (validateInsertRecordFits_steps key value)).bind fun _ => ?_
  refine (hI.keeps (leafValueFor_steps value)).bind fun lv => Keeps.get.bind fun s => ?_
  refine (hI.putFirst_keeps key lv).ite ((hI.keeps (pathToLeafForKey_steps key)).bind fun p => ?_)
  exact (hI.keeps (putAtPath_steps p key lv)).bind fun _ => Keeps.pure _

theorem treePut_keeps (hI : Forgetful I) (key value : Bytes) : Keeps I (treePut key value) :=
  hI.reset.bind fun _ => hI.putAny_keeps key value

theorem putBatchFrom_keeps (hI : Forgetful I) (pairs : List (Bytes × Bytes)) :
    ∀ cached, Keeps I (putBatchFrom pairs cached) := by
  induction pairs with
  | nil => exact fun _ => Keeps.pure _
  | cons r pairs ih =>
    intro cached
    refine (hI.keeps (validateInsertRecordFits_steps r.1 r.2)).bind fun _ => ?_
    refine Keeps.get.bind fun s => Keeps.ite ?_ ?_
    · exact (hI.treePut_keeps r.1 r.2).bind fun _ => ih _
    · refine (hI.keeps (reuseOrDescend_steps r.1 cached)).bind fun p => ?_
      refine (hI.keeps (leafValueFor_steps r.2)).bind fun lv => ?_
      exact (hI.keeps (putAtPath_steps p.1 r.1 lv)).bind fun split => ih _

end Forgetful

theorem Session.marks_forgetful : Forgetful (Session.Marks none none) where
  toStable := Session.marks_stable none none
  path := fun h => (Session.Marks.of_eq h rfl (Session.Marks.cachedPath h).symm)
  reset := Keeps.modify fun _ _ => rfl

theorem pageSize_of_steps {α : Type} {x : TreeM α} {full : Bool} {a : α} {s s' : Session} (hx : Steps full x)
    (hrun : x s = .ok a s') : s'.pageSize = s.pageSize := by
  have hsize : Stable fun t => t.pageSize = s.pageSize := by
    refine ⟨?_, fun hs _ hsize _ _ _ _ => hsize.trans hs, fun _ _ hs _ => hs⟩
    rintro t _ hs ⟨faults, rfl⟩
    exact hs
  exact (hsize.steps_keeps hx).of_ok rfl hrun

end Pagedb
