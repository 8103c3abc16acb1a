/-
  Pagedb.BTree.Seals — when each page of a tree was sealed
  (`btree/tree/seals.rs`, `pager/format/data_page.rs`).

  A page's envelope carries the counter of the nonce it was sealed with.  The
  ledger of one scan keeps, for each page read, its own counter and the newest
  counter at or below it, so that a tree sharing the page reads nothing and
  still learns the newest seal under it.  The reads go past the cache.

  Main results:
    * `walkPageSeals_sound` — the seal a walk reports is the seal of a page its
      root reaches, whatever earlier walks and failed walks left in the ledger;
    * `walkPageSeals_undamaged` — a walk over well-formed pages finds no damage,
      whatever other well-formed trees the ledger holds.
-/
import Pagedb.BTree.Reach

namespace Pagedb

open Lib List

/-! ## §1. Seals -/

/-- `CipherId`. -/
inductive CipherId where
  | aes256Gcm
  | chaCha20Poly1305
  | plaintextMac
  deriving DecidableEq, Repr

/-- `SealStamp`. -/
structure SealStamp where
  identity : Bytes
  counter : Nat
  mkEpoch : Nat
  cipherId : CipherId
  deriving DecidableEq, Repr

/-- A page that authenticated, with the stamp of its envelope. -/
structure SealedRead where
  page : Page
  stamp : SealStamp
  deriving DecidableEq, Repr

/-- `main.db` past the cache.  A read of a `failing` page meets an I/O error, a
    read of a page that is not there one that proves the page unreadable. -/
structure SealedFile where
  pages : List (PageId × SealedRead)
  failing : List PageId
  deriving DecidableEq, Repr

/-- `read_main_page_sealed`, of any kind. -/
def SealedFile.read (file : SealedFile) (id : PageId) : Except TreeError SealedRead :=
  if id ∈ file.failing then .error .io
  else
    match file.pages.lookup id with
    | none => .error .unexpectedEof
    | some read => .ok read

/-- The pages of the file. -/
def SealedFile.view (file : SealedFile) : PageView := fun id =>
  (file.pages.lookup id).map SealedRead.page

/-- `SealedPage`: one page and the counter its envelope holds. -/
structure SealedPage where
  pageId : PageId
  counter : Nat
  deriving DecidableEq, Repr

/-- The one of two pages that is the `better`. -/
def SealedPage.pick (better : SealedPage → SealedPage → Bool) :
    Option SealedPage → Option SealedPage → Option SealedPage
  | some a, some b => some (if better b a then b else a)
  | a, none => a
  | none, b => b

/-- `SealedPage::newer`. -/
def SealedPage.newer : Option SealedPage → Option SealedPage → Option SealedPage :=
  SealedPage.pick fun b a => decide (b.counter > a.counter)

/-- `SealedPage::older`. -/
def SealedPage.older : Option SealedPage → Option SealedPage → Option SealedPage :=
  SealedPage.pick fun b a => decide (b.counter < a.counter)

variable {a b newest : Option SealedPage} {q : SealedPage} {id root : PageId} {read : SealedRead}

theorem SealedPage.pick_mem {better : SealedPage → SealedPage → Bool}
    (h : SealedPage.pick better a b = some q) : a = some q ∨ b = some q := by
  cases a with
  | none => exact Or.inr (by cases b <;> exact h)
  | some a =>
    cases b with
    | none => exact Or.inl h
    | some b =>
      have h : some (if better b a then b else a) = some q := h
      split_ifs at h with hbetter
      · exact Or.inr h
      · exact Or.inl h

/-! ## §2. The ledger -/

/-- `LedgerEntry`.  `own` is `none` for a stamp that cannot be ordered. -/
structure LedgerEntry where
  own : Option SealedPage
  newest : Option SealedPage
  deriving DecidableEq, Repr

/-- `SealLedger`. -/
structure SealLedger where
  identity : Bytes
  pages : Table PageId LedgerEntry
  sawForeignSeal : Bool

namespace SealLedger

/-- `SealLedger::new`. -/
def new (fileId : Bytes) : SealLedger where
  identity := fileId.take 6
  pages := ∅
  sawForeignSeal := false

/-- Whether a stamp's counter can be ordered against the ledger's others. -/
def orders (ledger : SealLedger) (stamp : SealStamp) : Bool :=
  stamp.identity == ledger.identity && stamp.mkEpoch == 0 && stamp.cipherId != .plaintextMac

/-- `SealLedger::comparable`. -/
def comparable (ledger : SealLedger) (pageId : PageId) (stamp : SealStamp) :
    Option SealedPage × SealLedger :=
  if ledger.orders stamp then (some { pageId, counter := stamp.counter }, ledger)
  else (none, { ledger with sawForeignSeal := true })

/-- `SealLedger::own`. -/
def own (ledger : SealLedger) (pageId : PageId) : Option SealedPage :=
  (ledger.pages.lookup pageId).bind LedgerEntry.own

/-- `SealLedger::lookup`: `none` is an unread page. -/
def lookup (ledger : SealLedger) (pageId : PageId) : Option (Option SealedPage) :=
  (ledger.pages.lookup pageId).map LedgerEntry.newest

/-- `SealLedger::enter`. -/
def enter (ledger : SealLedger) (pageId : PageId) (stamp : SealStamp) :
    Option SealedPage × SealLedger :=
  let (own, ledger) := ledger.comparable pageId stamp
  (own, { ledger with pages := ledger.pages.insert pageId { own, newest := own } })

/-- `SealLedger::finish`. -/
def finish (ledger : SealLedger) (pageId : PageId) (newest : Option SealedPage) : SealLedger :=
  match ledger.pages.lookup pageId with
  | none => ledger
  | some entry => { ledger with pages := ledger.pages.insert pageId { entry with newest } }

end SealLedger

/-! ## §3. The walk -/

/-- What one walk changes: the ledger, and the pages it read first. -/
structure SealWalk where
  ledger : SealLedger
  reached : List PageId

/-- A program of a walk. -/
abbrev SealM := EStateM TreeError SealWalk

/-- `SealFrame`: an internal node whose children are still being walked. -/
structure SealFrame where
  pageId : PageId
  pending : List PageId
  newest : Option SealedPage
  deriving DecidableEq, Repr

/-- `SealStep`. -/
inductive SealStep where
  | known (newest : Option SealedPage)
  | descend (frame : SealFrame)
  deriving DecidableEq, Repr

/-- A read past the cache. -/
def readSealed (file : SealedFile) (id : PageId) : SealM SealedRead :=
  match file.read id with
  | .ok read => pure read
  | .error e => throw e

/-- Record a page that was read. -/
def enterPage (id : PageId) (stamp : SealStamp) : SealM (Option SealedPage) := do
  let w ← get
  set { ledger := (w.ledger.enter id stamp).2, reached := w.reached ++ [id] : SealWalk }
  pure (w.ledger.enter id stamp).1

/-- Record what a finished page has at or below it. -/
def finishPage (id : PageId) (newest : Option SealedPage) : SealM Unit :=
  modify fun w => { w with ledger := w.ledger.finish id newest }

/-- The loop of `walk_overflow_seals`.  Every turn reads a page that is not in
    the ledger yet, so the pages of the file bound the turns. -/
def walkChainSeals (file : SealedFile) : Nat → PageId → Option SealedPage →
    SealM (Option SealedPage)
  | 0, _, _ => throw .diverges
  | turns + 1, id, newest =>
    if id = 0 then pure newest
    else if id < FIRST_DATA_PAGE then throw .reservedPageReferenced
    else do
      match (← get).ledger.lookup id with
      | some _ => throw .overflowChainCycle
      | none =>
        let read ← readSealed file id
        match read.page with
        | .overflow next _ =>
          let own ← enterPage id read.stamp
          walkChainSeals file turns next (SealedPage.newer newest own)
        | _ => throw .illegalPageKind

/-- `walk_overflow_seals`. -/
def walkOverflowSeals (file : SealedFile) (root : PageId) : SealM (Option SealedPage) :=
  if root < FIRST_DATA_PAGE then throw .reservedPageReferenced
  else do
    match (← get).ledger.lookup root with
    | some newest => pure newest
    | none =>
      let read ← readSealed file root
      match read.page with
      | .overflowRoot _ next _ =>
        let own ← enterPage root read.stamp
        let newest ← walkChainSeals file (file.pages.length + 2) next own
        finishPage root newest
        pure newest
      | _ => throw .illegalPageKind

/-- The chains of one leaf. -/
def walkLeafSeals (file : SealedFile) : List PageId → Option SealedPage → SealM (Option SealedPage)
  | [], newest => pure newest
  | root :: roots, newest => do
    let chain ← walkOverflowSeals file root
    walkLeafSeals file roots (SealedPage.newer newest chain)

/-- `enter_node_seals`. -/
def enterNodeSeals (file : SealedFile) (id : PageId) : SealM SealStep :=
  if id < FIRST_DATA_PAGE then throw .reservedPageReferenced
  else do
    match (← get).ledger.lookup id with
    | some newest => pure (.known newest)
    | none =>
      let read ← readSealed file id
      match read.page with
      | .internal node =>
        let own ← enterPage id read.stamp
        pure (.descend { pageId := id, pending := node.children.filter (· ≠ 0), newest := own })
      | .leaf leaf =>
        let own ← enterPage id read.stamp
        let newest ← walkLeafSeals file (leaf.records.filterMap fun r => r.2.overflowRoot?) own
        finishPage id newest
        pure (.known newest)
      | _ => throw .illegalPageKind

/-- The loop of `walk_page_seals`; the stack is popped at its head. -/
def walkFramesFrom (file : SealedFile) : Nat → List SealFrame → SealM (Option SealedPage)
  | _, [] => pure none
  | 0, _ :: _ => throw .diverges
  | turns + 1, top :: stack =>
    match top.pending.getLast? with
    | some child => do
      let top := { top with pending := top.pending.dropLast }
      match ← enterNodeSeals file child with
      | .known newest =>
        walkFramesFrom file turns
          ({ top with newest := SealedPage.newer top.newest newest } :: stack)
      | .descend frame => walkFramesFrom file turns (frame :: top :: stack)
    | none => do
      finishPage top.pageId top.newest
      match stack with
      | [] => pure top.newest
      | parent :: stack =>
        walkFramesFrom file turns
          ({ parent with newest := SealedPage.newer parent.newest top.newest } :: stack)

/-- How many turns the loop can take: each node is entered once and left once,
    and each child slot is tried once. -/
def SealedFile.turnBound (file : SealedFile) : Nat :=
  (file.pages.map fun e => e.2.page.links.length + 1).sum + 1

/-- `walk_page_seals`. -/
def walkPageSeals (file : SealedFile) (root : PageId) : SealM (Option SealedPage) :=
  if root = 0 then pure none
  else do
    match ← enterNodeSeals file root with
    | .known newest => pure newest
    | .descend frame => walkFramesFrom file file.turnBound [frame]

/-! ## §4. What a reported seal is -/

/-- The file holds this seal. -/
def SealedFile.Seals (file : SealedFile) (q : SealedPage) : Prop :=
  ∃ read, file.pages.lookup q.pageId = some read ∧ read.stamp.counter = q.counter

/-- Every seal given is one of a page reached from `id`. -/
def SealedFile.Under (file : SealedFile) (id : PageId) (newest : Option SealedPage) : Prop :=
  ∀ q, newest = some q → Reach file.view.links id q.pageId ∧ file.Seals q

/-- What a scan's ledger says is so in the file. -/
structure SealLedger.Sound (file : SealedFile) (ledger : SealLedger) : Prop where
  own : ∀ id q, ledger.own id = some q → q.pageId = id ∧ file.Seals q
  newest : ∀ id newest, ledger.lookup id = some newest → file.Under id newest

variable {file : SealedFile} {ledger : SealLedger}

theorem SealedFile.view_of_lookup (h : file.pages.lookup id = some read) :
    file.view id = some read.page := by
  unfold SealedFile.view
  rw [h]
  rfl

theorem SealedFile.read_eq_ok (h : file.read id = .ok read) : file.pages.lookup id = some read := by
  unfold SealedFile.read at h
  by_cases hfail : id ∈ file.failing
  · rw [if_pos hfail] at h
    cases h
  · rw [if_neg hfail] at h
    cases hlook : file.pages.lookup id with
    | none => rw [hlook] at h; cases h
    | some found =>
      rw [hlook] at h
      cases h
      rfl

theorem SealedFile.under_none (id : PageId) : file.Under id none := nofun

theorem SealedFile.Under.newer (ha : file.Under id a) (hb : file.Under id b) :
    file.Under id (SealedPage.newer a b) := by
  intro q hq
  rcases SealedPage.pick_mem hq with h | h
  · exact ha q h
  · exact hb q h

theorem SealedFile.Under.trans {child : PageId} (hreach : Reach file.view.links id child)
    (h : file.Under child newest) : file.Under id newest :=
  fun q hq => ⟨hreach.trans (h q hq).1, (h q hq).2⟩

theorem SealLedger.comparable_seals (hread : file.pages.lookup id = some read)
    (h : (ledger.comparable id read.stamp).1 = some q) : q.pageId = id ∧ file.Seals q := by
  unfold SealLedger.comparable at h
  by_cases horder : ledger.orders read.stamp
  · rw [if_pos horder] at h
    cases h
    exact ⟨rfl, read, hread, rfl⟩
  · rw [if_neg horder] at h
    cases h

theorem SealLedger.comparable_pages (id : PageId) (stamp : SealStamp) :
    (ledger.comparable id stamp).2.pages = ledger.pages := by
  unfold SealLedger.comparable
  by_cases horder : ledger.orders stamp
  · rw [if_pos horder]
  · rw [if_neg horder]

theorem SealLedger.enter_pages (id : PageId) (stamp : SealStamp) : (ledger.enter id stamp).2.pages
      = ledger.pages.insert id
        { own := (ledger.comparable id stamp).1, newest := (ledger.comparable id stamp).1 } := by
  show (ledger.comparable id stamp).2.pages.insert id
    { own := (ledger.comparable id stamp).1, newest := (ledger.comparable id stamp).1 } = _
  rw [SealLedger.comparable_pages]

theorem SealLedger.Sound.of_pages {other : SealLedger} (h : ledger.Sound file)
    (hpages : other.pages = ledger.pages) : other.Sound file := by
  have hown : ∀ id, other.own id = ledger.own id := by
    intro id
    unfold SealLedger.own
    rw [hpages]
  have hnewest : ∀ id, other.lookup id = ledger.lookup id := by
    intro id
    unfold SealLedger.lookup
    rw [hpages]
  refine ⟨fun id q hq => ?_, fun id newest hn => ?_⟩
  · rw [hown] at hq
    exact h.own id q hq
  · rw [hnewest] at hn
    exact h.newest id newest hn

/-- Writing one entry whose parts are so. -/
theorem SealLedger.Sound.insert {other : SealLedger} {entry : LedgerEntry} (h : ledger.Sound file)
    (hpages : other.pages = ledger.pages.insert id entry)
    (hown : ∀ q, entry.own = some q → q.pageId = id ∧ file.Seals q)
    (hnewest : file.Under id entry.newest) : other.Sound file := by
  refine ⟨fun x q hq => ?_, fun x newest hn => ?_⟩
  · unfold SealLedger.own at hq
    rw [hpages] at hq
    by_cases hx : x = id
    · rw [hx, AList.lookup_insert] at hq
      rw [hx]
      exact hown q hq
    · rw [AList.lookup_insert_ne hx] at hq
      exact h.own x q hq
  · unfold SealLedger.lookup at hn
    rw [hpages] at hn
    by_cases hx : x = id
    · rw [hx, AList.lookup_insert] at hn
      rw [hx]
      cases hn
      exact hnewest
    · rw [AList.lookup_insert_ne hx] at hn
      exact h.newest x newest hn

/-- The walk's invariant: its ledger is sound. -/
def SealWalk.Sound (file : SealedFile) (w : SealWalk) : Prop := w.ledger.Sound file

/-- A program that leaves the ledger sound, and returns what `Q` allows. -/
abbrev SealSound {α : Type} (file : SealedFile) (Q : α → Prop) (x : SealM α) : Prop :=
  Safe (SealWalk.Sound file) (fun _ => True) Q x

theorem readSealed_sound (id : PageId) :
    SealSound file (fun read => file.pages.lookup id = some read) (readSealed file id) := by
  unfold readSealed
  cases hread : file.read id with
  | ok read => exact Safe.pure (SealedFile.read_eq_ok hread)
  | error e => exact Safe.throw trivial

theorem enterPage_sound (hread : file.pages.lookup id = some read) :
    SealSound file (file.Under id) (enterPage id read.stamp) := by
  have hown : ∀ (w : SealWalk) (q : SealedPage), (w.ledger.enter id read.stamp).1 = some q →
      q.pageId = id ∧ file.Seals q := fun w q hq => SealLedger.comparable_seals hread hq
  have hunder : ∀ w : SealWalk, file.Under id (w.ledger.enter id read.stamp).1 := by
    intro w q hq
    obtain ⟨hid, hseals⟩ := hown w q hq
    rw [hid]
    exact ⟨Reach.refl id, hseals⟩
  refine ⟨fun w hw => ?_, fun _ _ _ _ _ => trivial, fun w a t _ hrun => ?_⟩
  · exact SealLedger.Sound.insert hw (SealLedger.enter_pages id read.stamp)
      (fun q hq => hown w q hq) (hunder w)
  · cases hrun
    exact hunder w

theorem finishPage_sound (h : file.Under id newest) (w : SealWalk) (hw : w.Sound file) :
    SealWalk.Sound file { w with ledger := w.ledger.finish id newest } := by
  show (w.ledger.finish id newest).Sound file
  unfold SealLedger.finish
  cases hlook : w.ledger.pages.lookup id with
  | none => exact hw
  | some entry =>
    refine SealLedger.Sound.insert hw rfl (fun q hq => hw.own id q ?_) h
    unfold SealLedger.own
    rw [hlook]
    exact hq

theorem walkChainSeals_sound (turns : Nat) : ∀ (id : PageId) (newest : Option SealedPage),
      (id ≠ 0 → Reach file.view.links root id) → file.Under root newest →
      SealSound file (file.Under root) (walkChainSeals file turns id newest) := by
  induction turns with
  | zero => exact fun _ _ _ _ => Safe.throw trivial
  | succ turns ih =>
    intro id newest hreach hnewest
    rw [walkChainSeals]
    split_ifs with hzero hlow
    · exact Safe.pure hnewest
    · exact Safe.throw trivial
    · refine Safe.get fun w _ => ?_
      cases hlook : w.ledger.lookup id with
      | some found => exact Safe.throw trivial
      | none =>
        refine (readSealed_sound id).bind fun read hread => ?_
        obtain ⟨page, stamp⟩ := read
        cases page with
        | overflow next data =>
          refine (enterPage_sound hread).bind fun own hown => ?_
          have hlinks := PageView.links_eq (SealedFile.view_of_lookup hread)
          refine ih next _ (fun hnext => (hreach hzero).tail ?_)
            (hnewest.newer (hown.trans (hreach hzero)))
          rw [hlinks]
          show next ∈ [next].filter (· ≠ 0)
          rw [filter_cons_of_pos (by simpa using hnext)]
          exact mem_cons_self
        | _ => exact Safe.throw trivial

theorem walkOverflowSeals_sound (root : PageId) :
    SealSound file (file.Under root) (walkOverflowSeals file root) := by
  unfold walkOverflowSeals
  split_ifs with hlow
  · exact Safe.throw trivial
  · refine Safe.get fun w hw => ?_
    cases hlook : w.ledger.lookup root with
    | some found => exact Safe.pure (hw.newest root found hlook)
    | none =>
      refine (readSealed_sound root).bind fun read hread => ?_
      obtain ⟨page, stamp⟩ := read
      cases page with
      | overflowRoot refcount next data =>
        refine (enterPage_sound hread).bind fun own hown => ?_
        have hlinks := PageView.links_eq (SealedFile.view_of_lookup hread)
        have hnext : next ≠ 0 → Reach file.view.links root next := by
          intro hne
          refine (Reach.refl root).tail ?_
          rw [hlinks]
          show next ∈ [next].filter (· ≠ 0)
          rw [filter_cons_of_pos (by simpa using hne)]
          exact mem_cons_self
        refine (walkChainSeals_sound _ next own hnext hown).bind fun newest hnewest => ?_
        exact Safe.modify (finishPage_sound hnewest) (Safe.pure hnewest)
      | _ => exact Safe.throw trivial

theorem walkLeafSeals_sound (roots : List PageId) :
    ∀ newest : Option SealedPage, roots ⊆ file.view.links id → file.Under id newest →
      SealSound file (file.Under id) (walkLeafSeals file roots newest) := by
  induction roots with
  | nil => exact fun newest _ hnewest => Safe.pure hnewest
  | cons root roots ih =>
    intro newest hsub hnewest
    refine (walkOverflowSeals_sound root).bind fun chain hchain => ?_
    have hroot : Reach file.view.links id root :=
      (Reach.refl id).tail (hsub mem_cons_self)
    exact ih _ (fun r hr => hsub (mem_cons_of_mem root hr)) (hnewest.newer (hchain.trans hroot))

/-- A frame holds children of its node and seals from under it. -/
structure SealFrame.Sound (file : SealedFile) (frame : SealFrame) : Prop where
  pending : frame.pending ⊆ file.view.links frame.pageId
  newest : file.Under frame.pageId frame.newest

/-- What a step into `id` may return. -/
def SealStep.Sound (file : SealedFile) (id : PageId) : SealStep → Prop
  | .known newest => file.Under id newest
  | .descend frame => frame.pageId = id ∧ frame.Sound file

theorem enterNodeSeals_sound (id : PageId) :
    SealSound file (SealStep.Sound file id) (enterNodeSeals file id) := by
  unfold enterNodeSeals
  split_ifs with hlow
  · exact Safe.throw trivial
  · refine Safe.get fun w hw => ?_
    cases hlook : w.ledger.lookup id with
    | some found => exact Safe.pure (hw.newest id found hlook)
    | none =>
      refine (readSealed_sound id).bind fun read hread => ?_
      obtain ⟨page, stamp⟩ := read
      have hlinks := PageView.links_eq (SealedFile.view_of_lookup hread)
      cases page with
      | internal node =>
        refine (enterPage_sound hread).bind fun own hown => Safe.pure ⟨rfl, ?_, hown⟩
        rw [hlinks]
        exact List.Subset.refl _
      | leaf l =>
        refine (enterPage_sound hread).bind fun own hown => ?_
        refine (walkLeafSeals_sound _ own ?_ hown).bind fun newest hnewest => ?_
        · rw [hlinks]
          exact List.Subset.refl _
        · exact Safe.modify (finishPage_sound hnewest) (Safe.pure hnewest)
      | _ => exact Safe.throw trivial

/-- The page whose frame is on top of a stack over `root`. -/
def SealFrame.above (root : PageId) : List SealFrame → PageId
  | [] => root
  | frame :: _ => frame.pageId

/-- Each frame of the stack is sound, and its page is reached from the one
    under it. -/
def SealFrame.Nested (file : SealedFile) (root : PageId) : List SealFrame → Prop
  | [] => True
  | frame :: stack => frame.Sound file
    ∧ Reach file.view.links (SealFrame.above root stack) frame.pageId
    ∧ SealFrame.Nested file root stack

theorem walkFramesFrom_sound (turns : Nat) :
    ∀ stack : List SealFrame, SealFrame.Nested file root stack →
      SealSound file (file.Under root) (walkFramesFrom file turns stack) := by
  induction turns with
  | zero =>
    intro stack _
    cases stack with
    | nil => exact Safe.pure (SealedFile.under_none root)
    | cons top stack => exact Safe.throw trivial
  | succ turns ih =>
    intro stack hstack
    cases stack with
    | nil => exact Safe.pure (SealedFile.under_none root)
    | cons top stack =>
      obtain ⟨htop, hreach, hrest⟩ := hstack
      rw [walkFramesFrom.eq_def]
      dsimp only
      cases hlast : top.pending.getLast? with
      | some child =>
        have hchild : child ∈ file.view.links top.pageId :=
          htop.pending (mem_of_getLast? hlast)
        have hdrop : top.pending.dropLast ⊆ file.view.links top.pageId :=
          fun c hc => htop.pending (dropLast_subset _ hc)
        refine (enterNodeSeals_sound child).bind fun step hstep => ?_
        cases step with
        | known newest =>
          have hunder := SealedFile.Under.trans ((Reach.refl top.pageId).tail hchild) hstep
          exact ih _ ⟨⟨hdrop, htop.newest.newer hunder⟩, hreach, hrest⟩
        | descend frame =>
          refine ih _ ⟨hstep.2, ?_, ⟨hdrop, htop.newest⟩, hreach, hrest⟩
          rw [hstep.1]
          exact (Reach.refl top.pageId).tail hchild
      | none =>
        refine Safe.modify (finishPage_sound htop.newest) ?_
        cases stack with
        | nil => exact Safe.pure (htop.newest.trans hreach)
        | cons parent stack =>
          obtain ⟨hparent, hreach', hrest'⟩ := hrest
          exact ih _ ⟨⟨hparent.pending, hparent.newest.newer (htop.newest.trans hreach)⟩,
            hreach', hrest'⟩

/-- **What a walk reports.**  The seal is one of a page the root reaches. -/
theorem walkPageSeals_sound (root : PageId) :
    SealSound file (file.Under root) (walkPageSeals file root) := by
  unfold walkPageSeals
  split_ifs with hroot
  · exact Safe.pure (SealedFile.under_none root)
  · refine (enterNodeSeals_sound root).bind fun step hstep => ?_
    cases step with
    | known newest => exact Safe.pure hstep
    | descend frame =>
      refine walkFramesFrom_sound _ [frame] ⟨hstep.2, ?_, trivial⟩
      rw [hstep.1]
      exact Reach.refl root

/-! ## §5. Walks that find no damage -/

/-- An error that says nothing about the pages. -/
def TreeError.Harmless (e : TreeError) : Prop := e = .io ∨ e = .diverges

/-- A chain page in the ledger was reached through the page that links to it,
    so that page is in the ledger as well. -/
def SealLedger.Backed (file : SealedFile) (W : PageId → Prop) (ledger : SealLedger) : Prop :=
  ∀ z x, z ∈ ledger.pages → file.view.HasRole z .chainPage → W x → z ∈ file.view.links x →
    x ∈ ledger.pages

/-- The walk's invariant over the well-linked pages `W`. -/
def SealWalk.Backed (file : SealedFile) (W : PageId → Prop) (w : SealWalk) : Prop :=
  w.ledger.Backed file W

variable {W : PageId → Prop}

theorem SealLedger.lookup_eq_none : ledger.lookup id = none ↔ id ∉ ledger.pages := by
  unfold SealLedger.lookup
  rw [Option.map_eq_none_iff, AList.lookup_eq_none]

theorem SealLedger.mem_enter {z : PageId} {stamp : SealStamp} :
    z ∈ (ledger.enter id stamp).2.pages ↔ z = id ∨ z ∈ ledger.pages := by
  rw [SealLedger.enter_pages, AList.mem_insert]

theorem SealLedger.mem_finish {z : PageId} :
    z ∈ (ledger.finish id newest).pages ↔ z ∈ ledger.pages := by
  unfold SealLedger.finish
  cases hlook : ledger.pages.lookup id with
  | none => exact Iff.rfl
  | some entry =>
    have hid : id ∈ ledger.pages := AList.lookup_isSome.mp (by rw [hlook]; rfl)
    show z ∈ ledger.pages.insert id _ ↔ _
    rw [AList.mem_insert]
    constructor
    · rintro (rfl | hz)
      · exact hid
      · exact hz
    · exact Or.inr

theorem SealWalk.Backed.finish {w : SealWalk} (h : w.Backed file W) (id : PageId)
    (newest : Option SealedPage) :
    SealWalk.Backed file W { w with ledger := w.ledger.finish id newest } := by
  intro z x hz hrole hx hlink
  rw [SealLedger.mem_finish] at hz ⊢
  exact h z x hz hrole hx hlink

/-- The walk after one page was read. -/
def SealWalk.entered (w : SealWalk) (id : PageId) (stamp : SealStamp) : SealWalk where
  ledger := (w.ledger.enter id stamp).2
  reached := w.reached ++ [id]

theorem SealWalk.Backed.entered {w : SealWalk} (h : w.Backed file W) (stamp : SealStamp)
    (hid : file.view.HasRole id .chainPage → ∀ x, W x → id ∈ file.view.links x → x ∈ w.ledger.pages) :
    (w.entered id stamp).Backed file W := by
  intro z x hz hrole hx hlink
  refine SealLedger.mem_enter.mpr (Or.inr ?_)
  rcases SealLedger.mem_enter.mp hz with rfl | hz
  · exact hid hrole x hx hlink
  · exact h z x hz hrole hx hlink

theorem readSealed_eq {page : Page} (h : file.view id = some page) (w : SealWalk) :
    readSealed file id w = .error .io w ∨ ∃ stamp, readSealed file id w = .ok ⟨page, stamp⟩ w := by
  unfold SealedFile.view at h
  obtain ⟨read, hlook, rfl⟩ := Option.map_eq_some_iff.mp h
  by_cases hfail : id ∈ file.failing
  · left
    unfold readSealed SealedFile.read
    rw [if_pos hfail]
    rfl
  · right
    refine ⟨read.stamp, ?_⟩
    unfold readSealed SealedFile.read
    rw [if_neg hfail, hlook]
    rfl

theorem mem_chain_link {next : PageId} (h : next ≠ 0) : next ∈ [next].filter (· ≠ 0) := by
  rw [filter_cons_of_pos (by simpa using h)]
  exact mem_cons_self

/-- Along a chain every page is new, because the page before it was. -/
theorem walkChainSeals_undamaged (hW : file.view.WellLinked W) (turns : Nat) :
    ∀ (id x : PageId) (newest : Option SealedPage) (w : SealWalk),
      w.Backed file W → W x → x ∈ w.ledger.pages →
      (id ≠ 0 → id ∈ file.view.links x ∧ W id ∧ file.view.HasRole id .chainPage
        ∧ id ∉ w.ledger.pages) →
      SealWalk.Backed file W (endState (walkChainSeals file turns id newest w))
        ∧ FailsOnly TreeError.Harmless (walkChainSeals file turns id newest) w := by
  induction turns with
  | zero =>
    intro id x newest w hw _ _ _
    exact ⟨hw, FailsOnly.throw (Or.inr rfl)⟩
  | succ turns ih =>
    intro id x newest w hw hx hxin hid
    by_cases hzero : id = 0
    · rw [walkChainSeals, if_pos hzero]
      exact ⟨hw, FailsOnly.pure newest⟩
    · obtain ⟨hlink, hWid, hrole, hnew⟩ := hid hzero
      have hlow : ¬ id < FIRST_DATA_PAGE := Nat.not_lt.mpr (hW.allocatable id hWid)
      have hlook := SealLedger.lookup_eq_none.mpr hnew
      obtain ⟨page, hpage, hkind⟩ := hrole
      cases page with
      | overflow next data =>
        have hrun : walkChainSeals file (turns + 1) id newest w = (do
                let read ← readSealed file id
                match read.page with
                | .overflow next _ =>
                  let own ← enterPage id read.stamp
                  walkChainSeals file turns next (SealedPage.newer newest own)
                | _ => throw .illegalPageKind : SealM (Option SealedPage)) w := by
          rw [walkChainSeals, if_neg hzero, if_neg hlow, get_bind, hlook]
        unfold FailsOnly
        rw [hrun]
        rcases readSealed_eq hpage w with hread | ⟨stamp, hread⟩
        · rw [bind_of_error hread]
          refine ⟨hw, fun e t h => ?_⟩
          cases h
          exact Or.inl rfl
        · rw [bind_of_ok hread]
          -- the next page is new: were it in the ledger, so would this one be
          refine ih next id _ (w.entered id stamp) (hw.entered stamp fun hr y hy hylink => ?_) hWid
            (SealLedger.mem_enter.mpr (Or.inl rfl)) fun hne => ?_
          · rw [hW.single y x id hy hx hylink hlink hr]
            exact hxin
          · have hnextlink : next ∈ file.view.links id := by
              rw [PageView.links_eq hpage]
              exact mem_chain_link hne
            obtain ⟨hWnext, hnextrole⟩ :=
              hW.links id _ hWid hpage next (mem_chain_link hne)
            refine ⟨hnextlink, hWnext, hnextrole, fun hmem => ?_⟩
            rcases SealLedger.mem_enter.mp hmem with rfl | hmem
            · have hself := hW.single x next next hx hWid hlink hnextlink ⟨_, hpage, rfl⟩
              rw [hself] at hxin
              exact hnew hxin
            · exact hnew (hw next id hmem hnextrole hWid hnextlink)
      | _ => cases hkind

/-- A program that keeps the ledger backed and meets no damage. -/
abbrev SealUndamaged {α : Type} (file : SealedFile) (W : PageId → Prop) (Q : α → Prop)
    (x : SealM α) : Prop :=
  Safe (SealWalk.Backed file W) TreeError.Harmless Q x

theorem walkOverflowSeals_undamaged (hW : file.view.WellLinked W) (hroot : W root)
    (hrole : file.view.HasRole root .chainRoot) :
    SealUndamaged file W (fun _ => True) (walkOverflowSeals file root) := by
  have hlow : ¬ root < FIRST_DATA_PAGE := Nat.not_lt.mpr (hW.allocatable root hroot)
  obtain ⟨page, hpage, hkind⟩ := id hrole
  cases page with
  | overflowRoot refcount next data =>
    -- one run from a backed state, by what the ledger and the file hold
    have hat : ∀ w : SealWalk, w.Backed file W →
        SealWalk.Backed file W (endState (walkOverflowSeals file root w))
          ∧ FailsOnly TreeError.Harmless (walkOverflowSeals file root) w := by
      intro w hw
      unfold FailsOnly walkOverflowSeals
      rw [if_neg hlow, get_bind]
      cases hlook : w.ledger.lookup root with
      | some found => exact ⟨hw, nofun⟩
      | none =>
        have hnew := SealLedger.lookup_eq_none.mp hlook
        dsimp only
        rcases readSealed_eq hpage w with hread | ⟨stamp, hread⟩
        · rw [bind_of_error hread]
          refine ⟨hw, fun e t h => ?_⟩
          cases h
          exact Or.inl rfl
        · rw [bind_of_ok hread]
          have hnotchain : ¬ file.view.HasRole root .chainPage := by
            intro h
            have h := h.eq hrole
            cases h
          have hentered : (w.entered root stamp).Backed file W :=
            hw.entered stamp fun h => absurd h hnotchain
          have hchain := walkChainSeals_undamaged hW (file.pages.length + 2) next root
            (w.ledger.enter root stamp).1 (w.entered root stamp) hentered hroot
            (SealLedger.mem_enter.mpr (Or.inl rfl)) fun hne => by
              have hnextlink : next ∈ file.view.links root := by
                rw [PageView.links_eq hpage]
                exact mem_chain_link hne
              obtain ⟨hWnext, hnextrole⟩ :=
                hW.links root _ hroot hpage next (mem_chain_link hne)
              refine ⟨hnextlink, hWnext, hnextrole, fun hmem => ?_⟩
              rcases SealLedger.mem_enter.mp hmem with rfl | hmem
              · exact hnotchain hnextrole
              · exact hnew (hw next root hmem hnextrole hroot hnextlink)
          refine ⟨?_, FailsOnly.bind (s := w.entered root stamp) hchain.2 fun _ _ _ => nofun⟩
          show SealWalk.Backed file W
            (endState ((_ >>= _ : SealM (Option SealedPage)) (w.entered root stamp)))
          cases hrun : walkChainSeals file (file.pages.length + 2) next
              (w.ledger.enter root stamp).1 (w.entered root stamp) with
          | ok newest t =>
            rw [hrun] at hchain
            rw [bind_of_ok hrun]
            exact SealWalk.Backed.finish hchain.1 root newest
          | error e t =>
            rw [hrun] at hchain
            rw [bind_of_error hrun]
            exact hchain.1
    exact ⟨fun w hw => (hat w hw).1, fun w e t hw => (hat w hw).2 e t, fun _ _ _ _ _ => trivial⟩
  | _ => cases hkind

theorem readSealed_undamaged {page : Page} (h : file.view id = some page) :
    SealUndamaged file W (fun read => read.page = page) (readSealed file id) := by
  refine ⟨fun w hw => ?_, fun w e t _ hrun => ?_, fun w read t _ hrun => ?_⟩
  all_goals rcases readSealed_eq h w with hread | ⟨stamp, hread⟩
  · rw [hread]
    exact hw
  · rw [hread]
    exact hw
  · rw [hread] at hrun
    cases hrun
    exact Or.inl rfl
  · rw [hread] at hrun
    cases hrun
  · rw [hread] at hrun
    cases hrun
  · rw [hread] at hrun
    cases hrun
    rfl

theorem enterPage_undamaged (stamp : SealStamp) (h : ¬ file.view.HasRole id .chainPage) :
    SealUndamaged file W (fun _ => True) (enterPage id stamp) where
  keeps := fun _ hw => SealWalk.Backed.entered hw stamp fun hr => absurd hr h
  fails := nofun
  value := fun _ _ _ _ _ => trivial

theorem walkLeafSeals_undamaged (hW : file.view.WellLinked W) (roots : List PageId) :
    ∀ newest : Option SealedPage, (∀ root ∈ roots, W root ∧ file.view.HasRole root .chainRoot) →
      SealUndamaged file W (fun _ => True) (walkLeafSeals file roots newest) := by
  induction roots with
  | nil => exact fun newest _ => Safe.pure trivial
  | cons root roots ih =>
    intro newest hroots
    obtain ⟨hroot, hrole⟩ := hroots root mem_cons_self
    refine (walkOverflowSeals_undamaged hW hroot hrole).bind fun chain _ => ?_
    exact ih _ fun r hr => hroots r (mem_cons_of_mem root hr)

/-- What waits in a frame can be entered. -/
def SealFrame.Enterable (file : SealedFile) (W : PageId → Prop) (frame : SealFrame) : Prop :=
  ∀ child ∈ frame.pending, W child ∧ file.view.HasRole child .node

/-- A step into a well-linked node leaves children that can be entered. -/
def SealStep.Enterable (file : SealedFile) (W : PageId → Prop) : SealStep → Prop
  | .known _ => True
  | .descend frame => frame.Enterable file W

theorem enterNodeSeals_undamaged (hW : file.view.WellLinked W) (hid : W id)
    (hrole : file.view.HasRole id .node) :
    SealUndamaged file W (SealStep.Enterable file W) (enterNodeSeals file id) := by
  have hlow : ¬ id < FIRST_DATA_PAGE := Nat.not_lt.mpr (hW.allocatable id hid)
  have hnotchain : ¬ file.view.HasRole id .chainPage := by
    intro h
    have h := h.eq hrole
    cases h
  unfold enterNodeSeals
  rw [if_neg hlow]
  refine Safe.get fun w _ => ?_
  cases hlook : w.ledger.lookup id with
  | some found => exact Safe.pure trivial
  | none =>
    obtain ⟨page, hpage, hkind⟩ := hrole
    refine (readSealed_undamaged hpage).bind fun read hread => ?_
    obtain ⟨found, stamp⟩ := read
    have hfound : found = page := hread
    rw [hfound]
    have hlinks := hW.links id page hid hpage
    cases page with
    | internal node =>
      exact (enterPage_undamaged stamp hnotchain).bind fun own _ => Safe.pure hlinks
    | leaf l =>
      refine (enterPage_undamaged stamp hnotchain).bind fun own _ => ?_
      refine (walkLeafSeals_undamaged hW _ own hlinks).bind fun newest _ => ?_
      exact Safe.modify (fun w hw => SealWalk.Backed.finish hw id newest) (Safe.pure trivial)
    | _ => cases hkind

theorem walkFramesFrom_undamaged (hW : file.view.WellLinked W) (turns : Nat) :
    ∀ stack : List SealFrame, (∀ frame ∈ stack, frame.Enterable file W) →
      SealUndamaged file W (fun _ => True) (walkFramesFrom file turns stack) := by
  induction turns with
  | zero =>
    intro stack _
    cases stack with
    | nil => exact Safe.pure trivial
    | cons top stack => exact Safe.throw (Or.inr rfl)
  | succ turns ih =>
    intro stack hstack
    cases stack with
    | nil => exact Safe.pure trivial
    | cons top stack =>
      have htop := hstack top mem_cons_self
      have hrest : ∀ frame ∈ stack, frame.Enterable file W :=
        fun frame hf => hstack frame (mem_cons_of_mem top hf)
      rw [walkFramesFrom.eq_def]
      dsimp only
      cases hlast : top.pending.getLast? with
      | some child =>
        obtain ⟨hchild, hrole⟩ := htop child (mem_of_getLast? hlast)
        have hdrop : ∀ c ∈ top.pending.dropLast, W c ∧ file.view.HasRole c .node :=
          fun c hc => htop c (dropLast_subset _ hc)
        refine (enterNodeSeals_undamaged hW hchild hrole).bind fun step hstep => ?_
        cases step with
        | known newest => exact ih _ (forall_mem_cons.mpr ⟨hdrop, hrest⟩)
        | descend frame =>
          exact ih _ (forall_mem_cons.mpr ⟨hstep, forall_mem_cons.mpr ⟨hdrop, hrest⟩⟩)
      | none =>
        refine Safe.modify (fun w hw => SealWalk.Backed.finish hw _ _) ?_
        cases stack with
        | nil => exact Safe.pure trivial
        | cons parent stack =>
          refine ih _ (forall_mem_cons.mpr ⟨?_, ?_⟩)
          · exact hrest parent mem_cons_self
          · exact fun frame hf => hrest frame (mem_cons_of_mem parent hf)

/-- **Well-linked trees walk.**  A walk from a root of well-linked pages fails
    on I/O only, whatever trees of those pages the ledger holds already. -/
theorem walkPageSeals_undamaged (hW : file.view.WellLinked W)
    (hroot : root ≠ 0 → W root ∧ file.view.HasRole root .node) :
    SealUndamaged file W (fun _ => True) (walkPageSeals file root) := by
  unfold walkPageSeals
  split_ifs with hzero
  · exact Safe.pure trivial
  · obtain ⟨hWroot, hrole⟩ := hroot hzero
    refine (enterNodeSeals_undamaged hW hWroot hrole).bind fun step hstep => ?_
    cases step with
    | known newest => exact Safe.pure trivial
    | descend frame =>
      exact walkFramesFrom_undamaged hW _ [frame] (forall_mem_singleton.mpr hstep)

end Pagedb
