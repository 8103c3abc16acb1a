/-
  Pagedb.BTree.Marks — the append position, and who looks at it.

  A tree remembers the last key it appended and the path of the rightmost leaf.
  Only `put_append` reads these two marks.  Everything else is made of page steps
  (`Steps`) that do not know of them: it leaves the marks as they are, does the
  same from sessions that differ in them, and never fails for a key that is not
  above them (`Steps.unmarked`).
-/
import Pagedb.BTree.Scan

namespace Pagedb

open Lib

/-- The session with other append marks. -/
def Session.marked (last : Option Bytes) (path : Option (List PageId)) (s : Session) : Session :=
  { s with appendLastKey := last, appendCachedPath := path }

/-- A program that has nothing to do with the append marks. -/
abbrev Unmarked {α : Type} (last : Option Bytes) (path : Option (List PageId)) (x : TreeM α) :
    Prop :=
  Confined (Session.marked last path) (fun e => e ≠ .appendNotMonotonic) x

variable {last : Option Bytes} {path : Option (List PageId)}

/-! ## §1. Page steps -/

/-- A page that may be written: a leaf or an overflow page, an internal node that
    fits, or one that is on a page already but for its links. -/
def Session.Allows (s : Session) : Page → Prop
  | .internal node => node.fits s.pageSize = true
      ∨ ∃ id n old new, s.pager.page id = some (.internal n) ∧ node = n.repoint old new
  | _ => True

theorem Session.allows_leaf (s : Session) (leaf : Leaf) : s.Allows (.leaf leaf) := trivial

theorem Session.allows_chain (s : Session) (isRoot : Bool) (n : Nat) (next : PageId)
    (data : Bytes) :
    s.Allows (if isRoot then .overflowRoot n next data else .overflow next data) := by
  cases isRoot <;> exact trivial

theorem Session.allows_of_fits {s : Session} {node : Internal}
    (h : node.fits s.pageSize = true) : s.Allows (.internal node) := Or.inl h

/-- What only an allocation, a write or an append changes. -/
def Session.fixed (s : Session) :
    Pager × Nat × Option Bytes × Option (List PageId) × PageId × List PageId :=
  (s.pager, s.pageSize, s.appendLastKey, s.appendCachedPath, s.nextPageId, s.cache)

/-- The errors of page steps: an append is never refused, and a node is found too
    large only where `full` says that nodes are encoded. -/
def StepError (full : Bool) : TreeError → Prop
  | .appendNotMonotonic => False
  | .payloadTooLarge => full = true
  | _ => True

/-- The programs made of page steps. -/
inductive Steps (full : Bool) : {α : Type} → TreeM α → Prop where
  | pure {α : Type} (a : α) : Steps full (Pure.pure a)
  | throw {α : Type} {e : TreeError} (he : StepError full e) : Steps full (throw e : TreeM α)
  | bind {α β : Type} {x : TreeM α} {f : α → TreeM β} (hx : Steps full x)
      (hf : ∀ a, Steps full (f a)) : Steps full (x >>= f)
  | tryCatch {α : Type} {x : TreeM α} {f : TreeError → TreeM α} (hx : Steps full x)
      (hf : ∀ e, StepError full e → Steps full (f e)) : Steps full (tryCatch x f)
  | get {α : Type} {f : Session → TreeM α}
      (hsame : ∀ last path (s : Session), f (s.marked last path) = f s)
      (hf : ∀ s, Steps full (f s)) : Steps full (get >>= f)
  /-- A change of the books. -/
  | change {α : Type} {x : TreeM α} (hfixed : ∀ s, ∃ a t, x s = .ok a t ∧ t.fixed = s.fixed)
      (hsame : ∀ last path (s : Session),
        x (s.marked last path) = mapState (Session.marked last path) (x s)) : Steps full x
  | await : Steps full await
  | allocate : Steps full allocatePage
  | write (id : PageId) {page : Page} (hallow : ∀ s : Session, s.Allows page) :
      Steps full (writePage id page)
  | writeInternal (id : PageId) (node : Internal) (hfull : full = true) :
      Steps full (writeInternal id node)
  | repoint (old new childOld childNew : PageId) :
      Steps full (cowInternalRepointingChild old new childOld childNew)

variable {full : Bool}

theorem Steps.ite {α : Type} {c : Prop} [Decidable c] {x y : TreeM α} (hx : Steps full x)
    (hy : Steps full y) : Steps full (if c then x else y) := by
  split_ifs with hc
  · exact hx
  · exact hy

theorem Steps.modify {f : Session → Session} (hfixed : ∀ s, (f s).fixed = s.fixed)
    (hsame : ∀ last path (s : Session), f (s.marked last path) = (f s).marked last path) :
    Steps full (modify f : TreeM Unit) := by
  refine .change (fun s => ⟨_, f s, rfl, hfixed s⟩) fun last path s => ?_
  show EStateM.Result.ok () (f (s.marked last path)) = .ok () ((f s).marked last path)
  rw [hsame]

/-! ## §2. Pages -/

theorem await_confined : Confined (Session.marked last path) (StepError full) await where
  run := by
    intro s
    unfold await
    rw [get_bind, get_bind]
    rw [show (s.marked last path).pager.faults = s.pager.faults from rfl]
    cases s.pager.faults with
    | nil => rfl
    | cons f faults => cases f <;> rfl
  fails := by
    intro s e t h
    unfold await at h
    rw [get_bind] at h
    match hf : s.pager.faults with
    | [] | .none :: faults =>
      rw [hf] at h
      cases h
    | .fail :: faults | .cancel :: faults =>
      rw [hf] at h
      cases h
      trivial

theorem readInternal_confined (id : PageId) :
    Confined (Session.marked last path) (StepError full) (readInternal id) := by
  unfold readInternal readPage
  refine Confined.bind (await_confined.bind fun _ => Confined.get (fun _ => rfl) fun s => ?_)
    fun page => ?_
  · cases s.pager.page id with
    | none => exact Confined.throw trivial
    | some page => exact Confined.pure _
  · cases page with
    | internal n => exact Confined.pure _
    | _ => exact Confined.throw trivial

theorem writePage_confined (id : PageId) (page : Page) :
    Confined (Session.marked last path) (StepError full) (writePage id page) :=
  await_confined.bind fun _ => Confined.bind (Confined.modify fun _ => rfl) fun _ =>
    await_confined

/-- An allocation takes a page from one of three places, or panics. -/
theorem allocatePage_cases (s : Session) : allocatePage s = .error .panic s ∨ ∃ id t,
    allocatePage s = .ok id t ∧ (t = { s with freedReusable := s.freedReusable.dropLast }
      ∨ t = { s with cache := s.cache.dropLast, consumed := s.consumed ++ [id] }
      ∨ t = { s with nextPageId := s.nextPageId + 1 }) := by
  have hcheck : ∀ (id : PageId) (u : Session),
      (do assertUsable id; set u; pure id : TreeM PageId) s = .error .panic s
      ∨ (do assertUsable id; set u; pure id : TreeM PageId) s = .ok id u := by
    intro id u
    unfold assertUsable
    split_ifs with hid
    · exact .inl rfl
    · exact .inr rfl
  unfold allocatePage
  rw [get_bind]
  cases s.freedReusable.getLast? with
  | some id => exact (hcheck id _).imp_right fun h => ⟨_, _, h, .inl rfl⟩
  | none =>
    cases s.reuseThreshold with
    | none => exact (hcheck _ _).imp_right fun h => ⟨_, _, h, .inr (.inr rfl)⟩
    | some threshold =>
      cases s.cache.getLast? with
      | none => exact (hcheck _ _).imp_right fun h => ⟨_, _, h, .inr (.inr rfl)⟩
      | some id => exact (hcheck id _).imp_right fun h => ⟨_, _, h, .inr (.inl rfl)⟩

theorem allocatePage_confined :
    Confined (Session.marked last path) (StepError full) allocatePage where
  run := by
    intro s
    unfold allocatePage assertUsable
    rw [get_bind, get_bind]
    rcases s with ⟨⟨size, root, next, freed, reusable, dirty, scheduled, paths, fresh, threshold,
      lastKey, cachedPath, drains⟩, ⟨pager, cache, consumed⟩⟩
    unfold Session.marked
    dsimp only
    cases reusable.getLast? with
    | some id => by_cases hid : id < FIRST_DATA_PAGE <;> simp only [hid, if_true, if_false] <;> rfl
    | none =>
      cases threshold with
      | none =>
        by_cases hid : next < FIRST_DATA_PAGE <;> simp only [hid, if_true, if_false] <;> rfl
      | some threshold =>
        cases cache.getLast? with
        | none =>
          by_cases hid : next < FIRST_DATA_PAGE <;> simp only [hid, if_true, if_false] <;> rfl
        | some id =>
          by_cases hid : id < FIRST_DATA_PAGE <;> simp only [hid, if_true, if_false] <;> rfl
  fails := by
    intro s e t h
    rcases allocatePage_cases s with hpanic | ⟨id, u, hok, -⟩
    · rw [hpanic] at h
      cases h
      trivial
    · rw [hok] at h
      cases h

/-- **Page steps ignore the append marks.** -/
theorem Steps.confined {α : Type} {x : TreeM α} (h : Steps full x) :
    Confined (Session.marked last path) (StepError full) x := by
  induction h with
  | pure a => exact Confined.pure a
  | throw he => exact Confined.throw he
  | bind _ _ ihx ihf => exact ihx.bind ihf
  | tryCatch _ _ ihx ihf => exact ihx.tryCatch ihf
  | get hsame _ ih => exact Confined.get (hsame last path) ih
  | change hfixed hsame =>
    refine ⟨hsame last path, fun s e t heq => ?_⟩
    obtain ⟨a, u, hok, -⟩ := hfixed s
    rw [hok] at heq
    cases heq
  | await => exact await_confined
  | allocate => exact allocatePage_confined
  | write id _ => exact writePage_confined id _
  | writeInternal id node hfull =>
    exact Confined.get (fun _ => rfl) fun s => (writePage_confined id _).ite (Confined.throw hfull)
  | repoint old new childOld childNew =>
    exact (readInternal_confined old).bind fun node => writePage_confined new _

theorem Steps.unmarked {α : Type} {x : TreeM α} (h : Steps true x)
    (last : Option Bytes) (path : Option (List PageId)) : Unmarked last path x where
  run := h.confined.run
  fails := by
    rintro s e t heq rfl
    exact (@Steps.confined last path _ _ _ h).fails s _ t heq

theorem readPage_steps (id : PageId) : Steps full (readPage id) := by
  unfold readPage
  refine Steps.await.bind fun _ => .get (fun _ _ _ => rfl) fun s => ?_
  cases s.pager.page id with
  | none => exact .throw trivial
  | some page => exact .pure _

theorem readNodeGuard_steps (id : PageId) : Steps full (readNodeGuard id) := by
  unfold readNodeGuard
  refine (readPage_steps id).bind fun page => ?_
  cases page with
  | leaf l => exact .pure _
  | internal n => exact .pure _
  | _ => exact .throw trivial

theorem decodeLeafFromPager_steps (id : PageId) : Steps full (decodeLeafFromPager id) := by
  unfold decodeLeafFromPager
  refine (readPage_steps id).bind fun page => ?_
  cases page with
  | leaf l => exact .pure _
  | _ => exact .throw trivial

theorem readInternal_steps (id : PageId) : Steps full (readInternal id) := by
  unfold readInternal
  refine (readPage_steps id).bind fun page => ?_
  cases page with
  | internal n => exact .pure _
  | _ => exact .throw trivial

theorem writeLeaf_steps (id : PageId) (leaf : Leaf) : Steps true (writeLeaf id leaf) :=
  .get (fun _ _ _ => rfl) fun _ => (Steps.write id fun s => s.allows_leaf leaf).ite (.throw rfl)

theorem assertUsable_steps (id : PageId) : Steps full (assertUsable id) :=
  .ite (.throw trivial) (.pure _)

theorem freePage_steps (id : PageId) : Steps full (freePage id) := by
  refine (assertUsable_steps id).bind fun _ => .modify (fun s => ?_) fun last path s => ?_
  · split <;> rfl
  · show (if s.isReusable id then _ else _) = _
    split <;> rfl

theorem freePages_steps (ids : List PageId) : Steps full (freePages ids) := by
  induction ids with
  | nil => exact .pure _
  | cons id ids ih => exact (freePage_steps id).bind fun _ => ih

/-! ## §3. Overflow chains -/

theorem readRootPage_steps (id : PageId) : Steps full (readRootPage id) := by
  unfold readRootPage
  refine (readPage_steps id).bind fun page => ?_
  cases page with
  | overflowRoot n next data => exact .pure _
  | _ => exact .throw trivial

theorem readChainPage_steps (id : PageId) : Steps full (readChainPage id) := by
  unfold readChainPage
  refine (readPage_steps id).bind fun page => ?_
  cases page with
  | overflow next data => exact .pure _
  | _ => exact .throw trivial

theorem writeChainFrom_steps (turns : Nat) : ∀ (id : PageId) (value : Bytes) (isRoot : Bool),
    Steps full (writeChainFrom turns id value isRoot) := by
  induction turns with
  | zero => exact fun _ _ _ => .throw trivial
  | succ turns ih =>
    intro id value isRoot
    unfold writeChainFrom nextChainPage
    refine .get (fun _ _ _ => rfl) fun s => (Steps.allocate.ite (.pure _)).bind fun next => ?_
    exact (Steps.write id fun s => s.allows_chain isRoot _ _ _).bind fun _ =>
      (Steps.pure _).ite (ih next _ false)

theorem leafValueFor_steps (value : Bytes) : Steps full (leafValueFor value) := by
  unfold leafValueFor writeChain
  refine .get (fun _ _ _ => rfl) fun s => .ite (.bind ?_ fun _ => .pure _) (.pure _)
  exact Steps.allocate.bind fun root => (writeChainFrom_steps _ root value true).bind
    fun _ => .pure _

theorem walkChain_steps (turns : Nat) : ∀ (seen : List PageId) (cur : PageId),
    Steps full (walkChain turns seen cur) := by
  induction turns with
  | zero => exact fun _ _ => .throw trivial
  | succ turns ih =>
    intro seen cur
    unfold walkChain
    refine .ite (.pure _) (.ite (.throw trivial) ?_)
    exact (readChainPage_steps cur).bind fun r => (ih _ r.1).bind fun _ => .pure _

theorem release_steps (root new : PageId) : Steps full (release root new) := by
  unfold release
  refine (readRootPage_steps root).bind fun r => .ite ?_ ?_
  · exact .get (fun _ _ _ => rfl) fun s => (walkChain_steps _ _ _).bind fun _ => .pure _
  · exact (Steps.write new fun s => s.allows_chain true _ _ _).bind fun _ => .pure _

theorem collectChain_steps (root : PageId) : Steps full (collectChain root) := by
  unfold collectChain
  refine (readRootPage_steps root).bind fun r => .get (fun _ _ _ => rfl) fun s => ?_
  exact (walkChain_steps _ _ _).bind fun _ => .pure _

/-! ## §4. Leaves and splits -/

theorem cachedLeaf_steps (id : PageId) (fresh : Bool) : Steps full (cachedLeaf id fresh) := by
  unfold cachedLeaf
  refine .get (fun _ _ _ => rfl) fun s => ?_
  split
  · exact .throw trivial
  · exact .pure _

theorem setCachedLeaf_steps (id : PageId) (fresh : Bool) (leaf : Leaf) :
    Steps full (setCachedLeaf id fresh leaf) := by
  unfold setCachedLeaf
  cases fresh <;> exact .modify (fun _ => rfl) fun _ _ _ => rfl

theorem takeCachedLeaf_steps (id : PageId) (fresh : Bool) :
    Steps full (takeCachedLeaf id fresh) := by
  unfold takeCachedLeaf
  cases fresh <;> exact .modify (fun _ => rfl) fun _ _ _ => rfl

theorem touchLeaf_steps (id : PageId) (ancestors : List PageId) :
    Steps full (touchLeaf id ancestors) := by
  unfold touchLeaf ensureLeafDirty
  have hread : ∀ fresh, Steps full (do pure (fresh, ← cachedLeaf id fresh)) :=
    fun fresh => (cachedLeaf_steps id fresh).bind fun leaf => .pure _
  refine .get (fun _ _ _ => rfl) fun s => (hread _).ite (.bind ?_ fun _ => hread _)
  refine .get (fun _ _ _ => rfl) fun s => (Steps.pure _).ite ?_
  exact (decodeLeafFromPager_steps id).bind fun leaf => .modify (fun _ => rfl) fun _ _ _ => rfl

theorem copySpine_steps (up : List PageId) : ∀ (childOld childNew : PageId),
    Steps full (copySpine up childOld childNew) := by
  induction up with
  | nil => exact fun _ _ => .pure _
  | cons p up ih =>
    intro childOld childNew
    unfold copySpine
    refine Steps.allocate.bind fun newP => (Steps.repoint p newP _ _).bind fun _ => ?_
    refine (freePage_steps p).bind fun _ => .bind ?_ fun _ => ih p newP
    exact .modify (fun _ => rfl) fun _ _ _ => rfl

theorem propagateSplitUp_steps (up : List PageId) :
    ∀ (childOld left : PageId) (sep : Bytes) (right : PageId),
      Steps true (propagateSplitUp up childOld left sep right) := by
  induction up with
  | nil =>
    intro childOld left sep right
    unfold propagateSplitUp
    refine Steps.allocate.bind fun newRoot => (Steps.writeInternal newRoot _ rfl).bind fun _ => ?_
    exact .modify (fun _ => rfl) fun _ _ _ => rfl
  | cons p up ih =>
    intro childOld left sep right
    unfold propagateSplitUp
    refine (readInternal_steps p).bind fun old => Steps.allocate.bind fun newPage => ?_
    refine .get (fun _ _ _ => rfl) fun s => .ite ?_ ?_
    · refine (Steps.writeInternal newPage _ rfl).bind fun _ => (freePage_steps p).bind fun _ => ?_
      refine .bind (.modify (fun _ => rfl) fun _ _ _ => rfl) fun _ => ?_
      exact (copySpine_steps up p newPage).bind fun _ => .modify (fun _ => rfl) fun _ _ _ => rfl
    · split
      · exact .throw trivial
      · refine Steps.allocate.bind fun rightPage => (Steps.writeInternal newPage _ rfl).bind
          fun _ => (Steps.writeInternal rightPage _ rfl).bind fun _ => ?_
        refine (freePage_steps p).bind fun _ => .bind ?_ fun _ => ih p newPage _ rightPage
        exact .modify (fun _ => rfl) fun _ _ _ => rfl

theorem splitAtPath_steps (id : PageId) (fresh : Bool) (ancestors : List PageId) (leaf : Leaf)
    (monotonic : Bool) : Steps true (splitAtPath id fresh ancestors leaf monotonic) := by
  unfold splitAtPath
  refine (takeCachedLeaf_steps id fresh).bind fun _ => Steps.allocate.bind fun newLeaf => ?_
  refine .get (fun _ _ _ => rfl) fun s => ?_
  split
  · exact .throw trivial
  · refine Steps.allocate.bind fun right => .bind ?_ fun _ => (freePage_steps id).bind fun _ =>
      propagateSplitUp_steps ancestors id newLeaf _ right
    exact .modify (fun _ => rfl) fun _ _ _ => rfl

theorem discardUncommittedValue_steps (v : Option LeafValue) :
    Steps full (discardUncommittedValue v) := by
  unfold discardUncommittedValue
  split
  · refine .bind ?_ fun pages => freePages_steps pages
    exact (collectChain_steps _).tryCatch fun e he => .ite (.throw he) (.pure _)
  · exact .pure _

theorem releaseOld_steps {undo : TreeM Unit} (hundo : Steps full undo)
    (old : Option LeafValue) : Steps full (releaseOld undo old) := by
  unfold releaseOld
  split
  · refine Steps.allocate.bind fun cow => .bind ?_ fun result => ?_
    · refine (release_steps _ cow).tryCatch fun e he => .ite (.throw he) ?_
      exact (freePage_steps cow).bind fun _ => hundo.bind fun _ => .throw he
    · unfold applyReleaseResult
      cases result with
      | freed pages => exact (freePages_steps pages).bind fun _ => freePage_steps cow
      | decremented => exact freePage_steps _
  · exact .pure _

/-! ## §5. Updates along a path -/

theorem putUndo_steps (id : PageId) (fresh : Bool) (key : Bytes) (old : Option LeafValue) :
    Steps full (do
      let leaf ← cachedLeaf id fresh
      match old with
      | none => pure ()
      | some oldValue => do
        let (restored, attempted) := leaf.upsert key oldValue
        setCachedLeaf id fresh restored
        discardUncommittedValue attempted) := by
  refine (cachedLeaf_steps id fresh).bind fun leaf => ?_
  split
  · exact .pure _
  · exact (setCachedLeaf_steps id fresh _).bind fun _ => discardUncommittedValue_steps _

theorem putAtPath_steps (ids : List PageId) (key : Bytes) (value : LeafValue) :
    Steps true (putAtPath ids key value) := by
  unfold putAtPath
  split
  · exact .throw trivial
  · rename_i id _
    refine (touchLeaf_steps id _).bind fun touched => ?_
    refine (setCachedLeaf_steps id touched.1 _).bind fun _ => ?_
    refine (releaseOld_steps (putUndo_steps id touched.1 key _) _).bind fun _ => ?_
    refine .get (fun _ _ _ => rfl) fun s => (Steps.pure _).ite ?_
    exact (splitAtPath_steps id touched.1 _ _ _).bind fun _ => .pure _

theorem deleteAtPath_steps (ids : List PageId) (key : Bytes) :
    Steps full (deleteAtPath ids key) := by
  unfold deleteAtPath
  split
  · exact .throw trivial
  · rename_i id _
    refine (touchLeaf_steps id _).bind fun touched => ?_
    refine (setCachedLeaf_steps id touched.1 _).bind fun _ => ?_
    refine (releaseOld_steps ?_ _).bind fun _ => .pure _
    refine (cachedLeaf_steps id touched.1).bind fun leaf => ?_
    split
    · exact .pure _
    · exact setCachedLeaf_steps id touched.1 _

theorem descendFrom_steps (pick : Internal → PageId) (turns : Nat) :
    ∀ (above : List PageId) (id : PageId), Steps full (descendFrom pick turns above id) := by
  induction turns with
  | zero => exact fun _ _ => .throw trivial
  | succ turns ih =>
    intro above id
    unfold descendFrom
    refine .ite (.throw trivial) (.get (fun _ _ _ => rfl) fun s => ?_)
    split
    · exact .pure _
    · refine (readNodeGuard_steps id).bind fun node => ?_
      cases node with
      | inl page => exact .pure _
      | inr node => exact ih _ _

theorem descend_steps (pick : Internal → PageId) : Steps full (descend pick) :=
  .get (fun _ _ _ => rfl) fun s => descendFrom_steps pick _ [] s.rootPageId

theorem pathToLeafForKey_steps (key : Bytes) : Steps full (pathToLeafForKey key) :=
  (descend_steps _).bind fun _ => .pure _

theorem pathToRightmostLeaf_steps : Steps full pathToRightmostLeaf :=
  (descend_steps _).bind fun _ => .pure _

theorem maxKeyAtPath_steps (ids : List PageId) : Steps full (maxKeyAtPath ids) := by
  unfold maxKeyAtPath readLeaf
  split
  · exact .throw trivial
  · refine .bind (.get (fun _ _ _ => rfl) fun s => ?_) fun _ => .pure _
    split
    · exact .pure _
    · split
      · exact .pure _
      · exact decodeLeafFromPager_steps _

theorem validateInsertRecordFits_steps (key value : Bytes) :
    Steps true (validateInsertRecordFits key value) :=
  .get (fun _ _ _ => rfl) fun _ => (Steps.pure _).ite (.throw rfl)

/-! ## §6. Batches and flushes -/

theorem separatorBoundsFrom_steps (up : List PageId) :
    ∀ (child : PageId) (b : LeafBounds), Steps full (separatorBoundsFrom up child b) := by
  induction up with
  | nil => exact fun _ _ => .pure _
  | cons p up ih =>
    intro child b
    refine .bind ((readNodeGuard_steps p).bind fun node => ?_) fun node =>
      (Steps.pure _).ite (ih _ _)
    cases node with
    | inl leaf => exact .throw trivial
    | inr node => exact .pure _

theorem reuseOrDescend_steps (key : Bytes) (cached : Option (List PageId × LeafBounds)) :
    Steps full (reuseOrDescend key cached) := by
  unfold reuseOrDescend separatorBoundsForPath
  cases cached.filter fun c => c.2.contains key with
  | some c => exact .pure _
  | none =>
    refine (pathToLeafForKey_steps key).bind fun p => .bind ?_ fun b => .pure _
    cases p.getLast? with
    | none => exact .throw trivial
    | some leaf => exact separatorBoundsFrom_steps _ _ _

theorem deleteBatchFrom_steps (keys : List Bytes) :
    ∀ cached, Steps full (deleteBatchFrom keys cached) := by
  induction keys with
  | nil => exact fun _ => .pure _
  | cons key keys ih =>
    intro cached
    refine (reuseOrDescend_steps key cached).bind fun p => ?_
    exact (deleteAtPath_steps p.1 key).bind fun _ => ih _

theorem deleteAny_steps (key : Bytes) : Steps full (do
    if (← get).rootPageId = 0 then pure false
    else do
      let path ← pathToLeafForKey key
      deleteAtPath path key) :=
  .get (fun _ _ _ => rfl) fun _ => (Steps.pure _).ite
    ((pathToLeafForKey_steps key).bind fun p => deleteAtPath_steps p key)

theorem deleteBatchAny_steps (keys : List Bytes) : Steps full (do
    if (← get).rootPageId = 0 then pure () else deleteBatchFrom keys none) :=
  .get (fun _ _ _ => rfl) fun _ => (Steps.pure _).ite (deleteBatchFrom_steps keys none)

theorem writeFreshLeaves_steps (rows : List (PageId × Leaf)) :
    Steps true (writeFreshLeaves rows) := by
  induction rows with
  | nil => exact .pure _
  | cons row rows ih => exact (writeLeaf_steps row.1 row.2).bind fun _ => ih

theorem writeDirtyLeaves_steps (rows : List (PageId × Leaf)) :
    ∀ redirects, Steps true (writeDirtyLeaves rows redirects) := by
  induction rows with
  | nil => exact fun _ => .pure _
  | cons row rows ih =>
    exact fun _ => Steps.allocate.bind fun new => (writeLeaf_steps new row.2).bind fun _ => ih _

theorem rewriteInternals_steps (ids : List PageId) :
    ∀ redirects frees, Steps true (rewriteInternals ids redirects frees) := by
  induction ids with
  | nil => exact fun _ _ => .pure _
  | cons id ids ih =>
    intro redirects frees
    refine (readInternal_steps id).bind fun node => .ite ?_ (ih _ _)
    exact Steps.allocate.bind fun new => (Steps.writeInternal new _ rfl).bind fun _ => ih _ _

theorem rewriteSpine_steps (paths : List (List PageId)) (depth : Nat) :
    ∀ redirects frees, Steps true (rewriteSpine paths depth redirects frees) := by
  induction depth with
  | zero => exact fun _ _ => .pure _
  | succ depth ih =>
    exact fun redirects frees => (rewriteInternals_steps _ redirects frees).bind fun _ => ih _ _

theorem flushDirtyLeaves_steps (hash : HashOrder) : Steps true (flushDirtyLeaves hash) := by
  unfold flushDirtyLeaves
  refine .bind (.change (fun s => ⟨_, _, rfl, rfl⟩) fun _ _ _ => rfl) fun fresh => ?_
  refine (writeFreshLeaves_steps fresh).bind fun _ => .get (fun _ _ _ => rfl) fun s => ?_
  refine (Steps.pure _).ite (.bind (.change (fun s => ⟨_, _, rfl, rfl⟩) fun _ _ _ => rfl)
    fun drained => (writeDirtyLeaves_steps drained.1 ∅).bind fun redirects => ?_)
  refine (rewriteSpine_steps drained.2 _ redirects []).bind fun moved => ?_
  refine .bind (.modify (fun _ => rfl) fun _ _ _ => rfl) fun _ => freePages_steps moved.2

end Pagedb
