/-
  Pagedb.Txn.SealScan — the scan of `txn/db/catalog/history_seals.rs` over the
  rows a run of commits left.

  The scan goes from the newest row to the oldest.  With rows still to come, the
  roots it carries and the bound it carries are of commits that landed after
  every one of them, so a page sealed at or after the bound was sealed after the
  row that reaches it.  What the row held when it landed was sealed before.

  Main results:
    * `scanHistoryRow_step` — one row, whether its scan returns or fails;
    * `resealedInBatch_spares`, `newestResealedFrom_spares` — the pass over the
      history index;
    * `intact_rows_are_never_condemned` — a row whose pages are intact is never
      given up, unless a newer row is stale.
-/
import Pagedb.BTree.Slices
import Pagedb.Txn.SealOrder

namespace Pagedb

open Lib List

variable {file : SealedFile} {left : List SealSnap} {α : Type}

/-! ## §1. One row -/

/-- Every page the row reached holds the bytes it held when the row's commit
    landed. -/
def RetainedRow.Intact (r : RetainedRow) (file : SealedFile) : Prop :=
  ∀ id ∈ r.snap.pages, file.pages.lookup id = r.image.pages.lookup id

/-- The roots are of a commit that landed after `a`. -/
def SealSnap.FollowedBy (file : SealedFile) (a : SealSnap) (roots : PageId × PageId) : Prop :=
  (roots.1 = a.roots.1 ∨ file.SealedSince a.sealedBelow roots.1)
    ∧ (roots.2 = a.roots.2 ∨ file.SealedSince a.sealedBelow roots.2)

/-- A scan with the rows `left` still to come. -/
structure HistorySealScan.Ahead (file : SealedFile) (left : List SealSnap)
    (scan : HistorySealScan) : Prop where
  ledger : scan.ledger.Sound file
  bound : ∀ a ∈ left, ∀ b, scan.bound = some b → a.sealedBelow ≤ b.counter
  later : ∀ a ∈ left, a.FollowedBy file scan.laterRoots

variable {scan : HistorySealScan} {rows : List RetainedRow} {s : SealStore}

theorem HistorySealScan.Ahead.of_subset {left' : List SealSnap} (h : scan.Ahead file left)
    (hsub : left' ⊆ left) : scan.Ahead file left' where
  ledger := h.ledger
  bound := fun a ha => h.bound a (hsub ha)
  later := fun a ha => h.later a (hsub ha)

/-- The seal is one of a page the tree holds. -/
def SealedFile.UnderRoots (file : SealedFile) (roots : PageId × PageId)
    (newest : Option SealedPage) : Prop :=
  ∀ q, newest = some q → q.pageId ∈ file.view.rootedPages roots ∧ file.Seals q

theorem walkPageSeals_inTree (root : PageId) : SealSound file (fun newest => ∀ q, newest = some q →
      q.pageId ∈ file.view.treePages root ∧ file.Seals q) (walkPageSeals file root) := by
  by_cases hroot : root = 0
  · unfold walkPageSeals
    rw [if_pos hroot]
    exact Safe.pure nofun
  · have hwalk := @walkPageSeals_sound file root
    exact ⟨hwalk.keeps, hwalk.fails, fun w newest t hw hrun q hq =>
      ⟨⟨hroot, (hwalk.value w newest t hw hrun q hq).1⟩, (hwalk.value w newest t hw hrun q hq).2⟩⟩

theorem walkRowSeals_sound (m : CommitHistoryMeta) :
    SealSound file (file.UnderRoots m.roots) (walkRowSeals file m) := by
  refine (walkPageSeals_inTree m.activeRootPageId).bind fun data hdata => ?_
  refine (walkPageSeals_inTree m.catalogRootPageId).bind fun catalog hcatalog => ?_
  refine Safe.pure fun q hq => ?_
  rcases SealedPage.pick_mem hq with h | h
  · rcases SealedPage.pick_mem h with h | h
    · cases h
    · exact ⟨Or.inl (hdata q h).1, (hdata q h).2⟩
  · exact ⟨Or.inr (hcatalog q h).1, (hcatalog q h).2⟩

/-- A walk inside a scan keeps what does not depend on the ledger. -/
theorem onLedger_safe {x : SealM α} {I : HistorySealScan → Prop} {K : SealLedger → Prop}
    {E : TreeError → Prop} {Q : α → Prop} (hx : Safe (fun w : SealWalk => K w.ledger) E Q x)
    (hread : ∀ scan, I scan → K scan.ledger)
    (hwrite : ∀ scan ledger, I scan → K ledger → I { scan with ledger }) :
    Safe I E (fun r => Q r.1) (onLedger x) := by
  have hstart : ∀ scan : HistorySealScan, I scan →
      K (SealWalk.ledger { ledger := scan.ledger, reached := [] }) := fun scan h => hread scan h
  refine ⟨fun scan hscan => ?_, fun scan e t hscan hrun => ?_, fun scan r t hscan hrun => ?_⟩
  · have hkeeps := hx.keeps _ (hstart scan hscan)
    unfold onLedger
    cases hrun : x { ledger := scan.ledger, reached := [] } with
    | ok a w =>
      rw [hrun] at hkeeps
      exact hwrite scan w.ledger hscan hkeeps
    | error e w =>
      rw [hrun] at hkeeps
      exact hwrite scan w.ledger hscan hkeeps
  · unfold onLedger at hrun
    cases hx' : x { ledger := scan.ledger, reached := [] } with
    | ok a w =>
      rw [hx'] at hrun
      cases hrun
    | error e' w =>
      rw [hx'] at hrun
      cases hrun
      exact hx.fails _ e w (hstart scan hscan) hx'
  · unfold onLedger at hrun
    cases hx' : x { ledger := scan.ledger, reached := [] } with
    | ok a w =>
      rw [hx'] at hrun
      cases hrun
      exact hx.value _ a w (hstart scan hscan) hx'
    | error e' w =>
      rw [hx'] at hrun
      cases hrun

theorem SealedFile.readNode_eq_ok {id : PageId} {read : SealedRead}
    (h : file.readNode id = .ok read) : file.pages.lookup id = some read := by
  unfold SealedFile.readNode at h
  cases hread : file.read id with
  | error e =>
    rw [hread] at h
    cases h
  | ok found =>
    rw [hread] at h
    dsimp only at h
    by_cases hrole : found.page.role? = some .node
    · rw [if_pos hrole] at h
      cases h
      exact SealedFile.read_eq_ok hread
    · rw [if_neg hrole] at h
      cases h

/-- The seal found for a later root is the one the file holds. -/
theorem laterRootSeal_ahead (id : PageId) : Safe (HistorySealScan.Ahead file left) (fun _ => True)
      (fun found => ∀ q, found = some q → q.pageId = id ∧ file.Seals q)
      (laterRootSeal file id) := by
  refine Safe.get fun scan hscan => ?_
  cases hown : scan.ledger.own id with
  | some found =>
    refine Safe.pure fun q hq => ?_
    cases hq
    exact hscan.ledger.own id found hown
  | none =>
    cases hread : file.readNode id with
    | ok read =>
      have hlook := SealedFile.readNode_eq_ok hread
      refine Safe.modify (f := fun _ => { scan with ledger :=
        (scan.ledger.comparable id read.stamp).2 }) (fun _ _ => ?_) ?_
      · exact {
          ledger := hscan.ledger.of_pages (SealLedger.comparable_pages id read.stamp)
          bound := hscan.bound
          later := hscan.later }
      · exact Safe.pure fun q hq => SealLedger.comparable_seals hlook hq
    | error e =>
      dsimp only
      split_ifs with hproves
      · refine Safe.modify (f := fun _ => scan.voided .unreadableLiveRoot)
          (fun _ _ => ⟨hscan.ledger, hscan.bound, hscan.later⟩) ?_
        exact Safe.pure nofun
      · exact Safe.throw trivial

/-- A later root that differs from the row's was sealed after all rows left. -/
theorem raiseBound_ahead {laterRoot rowRoot : PageId}
    (h : laterRoot = rowRoot ∨ ∀ a ∈ left, file.SealedSince a.sealedBelow laterRoot) :
    Safe (HistorySealScan.Ahead file left) (fun _ => True) (fun _ => True)
      (raiseBound file laterRoot rowRoot) := by
  unfold raiseBound
  split_ifs with hskip
  · exact Safe.pure trivial
  · have hsince := h.resolve_left fun heq => hskip (Or.inr heq)
    refine (laterRootSeal_ahead laterRoot).bind fun found hfound => ?_
    refine Safe.modify (g := Pure.pure) (fun scan hscan => ?_) (Safe.pure trivial)
    refine ⟨hscan.ledger, fun a ha b hb => ?_, hscan.later⟩
    rcases SealedPage.pick_mem hb with hold | hnew
    · exact hscan.bound a ha b hold
    · obtain ⟨hid, read, hlook, hcounter⟩ := hfound b hnew
      rw [hid] at hlook
      rw [← hcounter]
      exact hsince a ha read hlook

theorem HistorySealScan.evidence_eq_some {newest : Option SealedPage} {found : ResealEvidence}
    (h : scan.evidence newest = some found) :
    ∃ page later, newest = some page ∧ scan.bound = some later ∧ later.counter ≤ page.counter := by
  unfold HistorySealScan.evidence at h
  cases hvoid : scan.void with
  | some void =>
    rw [hvoid] at h
    cases h
  | none =>
    cases newest with
    | none =>
      rw [hvoid] at h
      cases h
    | some page =>
      cases hbound : scan.bound with
      | none =>
        rw [hvoid, hbound] at h
        cases h
      | some later =>
        rw [hvoid, hbound] at h
        dsimp only at h
        by_cases hge : page.counter ≥ later.counter
        · exact ⟨page, later, rfl, rfl, hge⟩
        · rw [if_neg hge] at h
          cases h

/-- **One row of a scan.**  The rows left are still ahead, and what the row is
    condemned for is a page of it sealed after it landed. -/
theorem scanHistoryRow_step {d : SealSnap} {m : CommitHistoryMeta}
    (hscan : scan.Ahead file (left ++ [d])) (hm : m.roots = d.roots)
    (hbefore : ∀ a ∈ left, a.Precedes file d) :
    HistorySealScan.Ahead file left (endState (scanHistoryRow file m scan))
      ∧ ∀ reached found t, scanHistoryRow file m scan = .ok (reached, some found) t →
        ∃ q, q.pageId ∈ file.view.rootedPages d.roots ∧ file.Seals q
          ∧ d.sealedBelow ≤ q.counter := by
  have hd : d ∈ left ++ [d] := mem_append_right _ (mem_singleton_self d)
  have hle : ∀ a ∈ left ++ [d], a.sealedBelow ≤ d.sealedBelow := by
    intro a ha
    rcases mem_append.mp ha with ha | ha
    · exact (hbefore a ha).bound
    · rw [mem_singleton.mp ha]
  have hwalk : Safe (HistorySealScan.Ahead file (left ++ [d])) (fun _ => True)
      (fun r => file.UnderRoots m.roots r.1) (onLedger (walkRowSeals file m)) :=
    onLedger_safe (K := SealLedger.Sound file) (walkRowSeals_sound m) (fun _ h => h.ledger)
      fun _ _ h hl => ⟨hl, h.bound, h.later⟩
  unfold scanHistoryRow
  cases hrun : onLedger (walkRowSeals file m) scan with
  | error e t =>
    have hkept := hwalk.keeps scan hscan
    rw [hrun] at hkept
    rw [bind_of_error hrun]
    exact ⟨hkept.of_subset (subset_append_left _ _), nofun⟩
  | ok r t =>
    obtain ⟨newest, reached⟩ := r
    have hnewest := hwalk.value scan _ t hscan hrun
    have ht := hwalk.keeps.of_ok hscan hrun
    rw [bind_of_ok hrun]
    dsimp only
    rw [get_bind, modify_bind]
    -- from here on the row's own roots are the later ones: they follow the row
    -- itself, and the rows before it
    have hstart : HistorySealScan.Ahead file (left ++ [d])
        { t with laterRoots := (m.activeRootPageId, m.catalogRootPageId) } := by
      refine ⟨ht.ledger, ht.bound, fun a ha => ?_⟩
      show a.FollowedBy file m.roots
      rw [hm]
      rcases mem_concat.mp ha with ha | rfl
      · exact ⟨(hbefore a ha).dataRoot, (hbefore a ha).catalogRoot⟩
      · exact ⟨Or.inl rfl, Or.inl rfl⟩
    have hsince : ∀ root, file.SealedSince d.sealedBelow root →
        ∀ a ∈ left ++ [d], file.SealedSince a.sealedBelow root :=
      fun root h a ha read hread => Nat.le_trans (hle a ha) (h read hread)
    have hactive : m.activeRootPageId = d.roots.1 := congrArg Prod.fst hm
    have hcatalog : m.catalogRootPageId = d.roots.2 := congrArg Prod.snd hm
    have hrest : Safe (HistorySealScan.Ahead file (left ++ [d])) (fun _ => True)
        (fun r : List PageId × Option ResealEvidence => ∀ found, r.2 = some found →
          ∃ q, q.pageId ∈ file.view.rootedPages d.roots ∧ file.Seals q ∧ d.sealedBelow ≤ q.counter)
        (do
          raiseBound file t.laterRoots.1 m.activeRootPageId
          raiseBound file t.laterRoots.2 m.catalogRootPageId
          modify fun scan =>
            if scan.ledger.sawForeignSeal then scan.voided .mixedPageSeals else scan
          let scan ← get
          pure (reached, scan.evidence newest)) := by
      refine (raiseBound_ahead ?_).bind fun _ _ => (raiseBound_ahead ?_).bind fun _ _ => ?_
      · rw [hactive]
        exact (ht.later d hd).1.imp_right (hsince _)
      · rw [hcatalog]
        exact (ht.later d hd).2.imp_right (hsince _)
      · refine Safe.modify (fun scan h => ?_) (Safe.get fun scan h => Safe.pure ?_)
        · split_ifs with hforeign
          · exact ⟨h.ledger, h.bound, h.later⟩
          · exact h
        · intro found hfound
          obtain ⟨page, later, hpage, hbound, hge⟩ := HistorySealScan.evidence_eq_some hfound
          rw [hm] at hnewest
          obtain ⟨hin, hseals⟩ := hnewest page hpage
          exact ⟨page, hin, hseals, Nat.le_trans (h.bound d hd later hbound) hge⟩
    exact ⟨(hrest.keeps _ hstart).of_subset (subset_append_left _ _),
      fun reached' found u h => hrest.value _ _ u hstart h found rfl⟩

theorem RetainedRow.Intact.sealed_before {r : RetainedRow} (h : r.Intact file) (hgood : r.snap.Good)
    {q : SealedPage} (hin : q.pageId ∈ file.view.rootedPages r.snap.roots) (hq : file.Seals q) :
    q.counter < r.sealedBelow := by
  have hpages : file.view.rootedPages r.snap.roots = r.snap.pages :=
    PageView.rootedPages_congr fun id hid => SealStore.view_eq_of_lookup (h id hid)
  rw [hpages] at hin
  obtain ⟨read, hlook, hcounter⟩ := hq
  rw [h _ hin] at hlook
  rw [← hcounter]
  exact hgood.below _ read hlook

/-- A scan over rows, newest first, whatever comes of each. -/
def scanRows (file : SealedFile) : List RetainedRow → ScanM Unit
  | [] => pure ()
  | r :: rows => do
    let _ ← attempt (scanHistoryRow file r.row)
    scanRows file rows

theorem attempt_eq {σ : Type} (x : EStateM TreeError σ α) (s : σ) :
    ∃ r, attempt x s = .ok r (endState (x s)) := by
  unfold attempt
  cases hrun : x s with
  | ok a t => exact ⟨.ok a, rfl⟩
  | error e t => exact ⟨.error e, rfl⟩

/-- After any number of rows, the rest is still ahead. -/
theorem scanRows_ahead (newest : List RetainedRow) :
    ∀ (left : List RetainedRow) (scan : HistorySealScan),
      ((left ++ newest.reverse).map RetainedRow.snap).Pairwise (SealSnap.Precedes file) →
      scan.Ahead file ((left ++ newest.reverse).map RetainedRow.snap) →
      HistorySealScan.Ahead file (left.map RetainedRow.snap)
        (endState (scanRows file newest scan)) := by
  induction newest with
  | nil =>
    intro left scan _ hscan
    rw [reverse_nil, append_nil] at hscan
    exact hscan
  | cons r newest ih =>
    intro left scan hordered hscan
    rw [reverse_cons, ← append_assoc, map_append] at hordered hscan
    have hbefore : ∀ a ∈ (left ++ newest.reverse).map RetainedRow.snap, a.Precedes file r.snap :=
      fun a ha => (pairwise_append.mp hordered).2.2 a ha r.snap (mem_singleton_self _)
    have hstep := (scanHistoryRow_step (m := r.row) hscan rfl hbefore).1
    obtain ⟨found, hattempt⟩ := attempt_eq (scanHistoryRow file r.row) scan
    show HistorySealScan.Ahead file _ (endState ((attempt (scanHistoryRow file r.row) >>=
      fun _ => scanRows file newest) scan))
    rw [bind_of_ok hattempt]
    exact ih left _ (pairwise_append.mp hordered).1 hstep

/-! ## §2. Rows whose pages are all in place -/

/-- Of two rows one precedes the other. -/
theorem precedes_or_precedes
    (hordered : (rows.map RetainedRow.snap).Pairwise (SealSnap.Precedes file))
    (hgood : ∀ r ∈ rows, r.snap.Good) {r r' : RetainedRow} (hr : r ∈ rows) (hr' : r' ∈ rows) :
    r.snap.Precedes file r'.snap ∨ r'.snap.Precedes file r.snap := by
  have hsymm : Std.Symm fun r r' : RetainedRow =>
      r.snap.Precedes file r'.snap ∨ r'.snap.Precedes file r.snap := ⟨fun _ _ h => h.symm⟩
  exact List.Pairwise.forall_of_forall (R := fun r r' : RetainedRow =>
      r.snap.Precedes file r'.snap ∨ r'.snap.Precedes file r.snap)
    (fun r hr => Or.inl (hgood r hr).precedes_self)
    ((pairwise_map.mp hordered).imp Or.inl) hr hr'

theorem SealedFile.lookup_of_link {x y : PageId} (h : y ∈ file.view.links x) :
    ∃ read, file.pages.lookup x = some read := by
  unfold PageView.links SealedFile.view at h
  cases hlook : file.pages.lookup x with
  | none =>
    rw [hlook] at h
    exact absurd h not_mem_nil
  | some read => exact ⟨read, rfl⟩

/-- Where rows are intact, the pages they reach are the pages of trees: a chain
    page two rows share has the same predecessor in both. -/
theorem wellLinked_of_intact
    (hordered : (rows.map RetainedRow.snap).Pairwise (SealSnap.Precedes file))
    (hgood : ∀ r ∈ rows, r.snap.Good) (hintact : ∀ r ∈ rows, r.Intact file) :
    file.view.WellLinked fun id => ∃ r ∈ rows, id ∈ r.snap.pages := by
  have hview : ∀ r ∈ rows, ∀ id ∈ r.snap.pages, file.view id = r.image.view id :=
    fun r hr id hid => SealStore.view_eq_of_lookup (hintact r hr id hid)
  have hlinks : ∀ r ∈ rows, ∀ x ∈ r.snap.pages, file.view.links x = r.image.view.links x :=
    fun r hr x hx => PageView.links_congr (hview r hr x hx)
  refine ⟨fun x hx => ?_, fun x page hx hpage y hy => ?_, fun x y z hx hy hzx hzy hrole => ?_⟩
  · obtain ⟨r, hr, hx⟩ := hx
    exact (hgood r hr).linked.allocatable x hx
  · obtain ⟨r, hr, hx⟩ := hx
    rw [hview r hr x hx] at hpage
    obtain ⟨hin, found, hfound, hkind⟩ := (hgood r hr).linked.links x page hx hpage y hy
    exact ⟨⟨r, hr, hin⟩, found, (hview r hr y hin).trans hfound, hkind⟩
  · -- the older of the two rows reaches both pages
    have hboth : ∀ r ∈ rows, ∀ r' ∈ rows, r.snap.Precedes file r'.snap →
        ∀ x ∈ r.snap.pages, ∀ y ∈ r'.snap.pages, z ∈ file.view.links x → z ∈ file.view.links y →
        x = y := by
      intro r hr r' hr' hpre x hx y hy hzx hzy
      rw [hlinks r hr x hx] at hzx
      rw [hlinks r' hr' y hy] at hzy
      have hz : z ∈ r.snap.pages := PageView.rootedPages_link hx hzx
      have hz' : z ∈ r'.snap.pages := PageView.rootedPages_link hy hzy
      obtain ⟨page, hpage, hkind⟩ := id hrole
      have hrole' : r'.image.view.HasRole z .chainPage :=
        ⟨page, (hview r' hr' z hz').symm.trans hpage, hkind⟩
      have hroleOld : r.image.view.HasRole z .chainPage :=
        ⟨page, (hview r hr z hz).symm.trans hpage, hkind⟩
      obtain ⟨rz, hlookz⟩ : ∃ rz, file.pages.lookup z = some rz := by
        unfold SealedFile.view at hpage
        obtain ⟨rz, hrz, -⟩ := Option.map_eq_some_iff.mp hpage
        exact ⟨rz, hrz⟩
      have hzold : rz.stamp.counter < r.snap.sealedBelow :=
        (hgood r hr).below z rz ((hintact r hr z hz).symm.trans hlookz)
      have hlookz' : r'.image.pages.lookup z = some rz := (hintact r' hr' z hz').symm.trans hlookz
      obtain ⟨ry, hlooky⟩ := SealedFile.lookup_of_link hzy
      have hyold := hpre.chain y z ry rz hy hzy hrole' hlooky hlookz' hzold
      obtain ⟨hyin, hlooky'⟩ := hpre.lineage y ry hy hlooky hyold
      have hlink : z ∈ r.image.view.links y := by
        rw [← hlinks r hr y hyin, hlinks r' hr' y hy]
        exact hzy
      exact (hgood r hr).linked.single x y z hx hyin hzx hlink hroleOld
    obtain ⟨r, hr, hx⟩ := hx
    obtain ⟨r', hr', hy⟩ := hy
    rcases precedes_or_precedes hordered hgood hr hr' with h | h
    · exact hboth r hr r' hr' h x hx y hy hzx hzy
    · exact (hboth r' hr' r hr h y hy x hx hzy hzx).symm

/-- A scan's ledger over the well-linked pages `W`. -/
def HistorySealScan.Backed (file : SealedFile) (W : PageId → Prop) (scan : HistorySealScan) :
    Prop :=
  scan.ledger.Backed file W

/-- The error ends a pass instead of condemning a row. -/
def TreeError.SparesRow (e : TreeError) : Prop := e.provesUnreadablePages = false

theorem TreeError.Harmless.sparesRow {e : TreeError} (h : e.Harmless) : e.SparesRow := by
  rcases h with rfl | rfl <;> rfl

variable {W : PageId → Prop}

theorem laterRootSeal_backed (id : PageId) :
    Safe (HistorySealScan.Backed file W) TreeError.SparesRow (fun _ => True)
      (laterRootSeal file id) := by
  refine Safe.get fun scan hscan => ?_
  cases hown : scan.ledger.own id with
  | some found => exact Safe.pure trivial
  | none =>
    cases hread : file.readNode id with
    | ok read =>
      refine Safe.modify (f := fun _ => { scan with ledger :=
        (scan.ledger.comparable id read.stamp).2 }) (fun _ _ => ?_) ?_
      · unfold HistorySealScan.Backed SealLedger.Backed
        dsimp only
        rw [SealLedger.comparable_pages]
        exact hscan
      · exact Safe.pure trivial
    | error e =>
      dsimp only
      split_ifs with hproves
      · refine Safe.modify (f := fun _ => scan.voided .unreadableLiveRoot) (fun _ _ => hscan) ?_
        exact Safe.pure trivial
      · exact Safe.throw (Bool.eq_false_iff.mpr hproves)

theorem raiseBound_backed (laterRoot rowRoot : PageId) :
    Safe (HistorySealScan.Backed file W) TreeError.SparesRow (fun _ => True)
      (raiseBound file laterRoot rowRoot) := by
  unfold raiseBound
  split_ifs with hskip
  · exact Safe.pure trivial
  · refine (laterRootSeal_backed laterRoot).bind fun found _ => ?_
    exact Safe.modify (g := Pure.pure) (fun scan hscan => hscan)
      (Safe.pure (P := fun _ => True) trivial)

/-- A row of well-linked pages is never unreadable. -/
theorem scanHistoryRow_backed (hW : file.view.WellLinked W) {m : CommitHistoryMeta}
    (hdata : m.activeRootPageId ≠ 0 → W m.activeRootPageId
      ∧ file.view.HasRole m.activeRootPageId .node)
    (hcatalog : m.catalogRootPageId ≠ 0 → W m.catalogRootPageId
      ∧ file.view.HasRole m.catalogRootPageId .node) :
    Safe (HistorySealScan.Backed file W) TreeError.SparesRow (fun _ => True)
      (scanHistoryRow file m) := by
  have hwalk : SealUndamaged file W (fun _ => True) (walkRowSeals file m) := by
    refine (walkPageSeals_undamaged hW hdata).bind fun _ _ => ?_
    exact (walkPageSeals_undamaged hW hcatalog).bind fun _ _ => Safe.pure trivial
  have hscan : Safe (HistorySealScan.Backed file W) TreeError.SparesRow (fun _ => True)
      (onLedger (walkRowSeals file m)) := by
    have hled := onLedger_safe (I := HistorySealScan.Backed file W)
      (K := SealLedger.Backed file W) hwalk (fun _ h => h) fun _ _ _ hl => hl
    exact ⟨hled.keeps, fun s e t hs hrun => (hled.fails s e t hs hrun).sparesRow,
      fun _ _ _ _ _ => trivial⟩
  unfold scanHistoryRow
  refine hscan.bind fun r _ => Safe.get fun scan _ => Safe.modify (fun _ h => h) ?_
  refine (raiseBound_backed _ _).bind fun _ _ => (raiseBound_backed _ _).bind fun _ _ => ?_
  refine Safe.modify (fun scan h => ?_) (Safe.get fun scan _ => Safe.pure trivial)
  split_ifs with hforeign
  · exact h
  · exact h

/-! ## §3. The pass over the history index -/

/-- The row in the history index. -/
def RetainedRow.entry (r : RetainedRow) : Bytes × Bytes :=
  (historyKey r.commit, encodeCommitMeta r.row)

/-- What holds of the rows of a store. -/
structure RetainedRows (file : SealedFile) (rows : List RetainedRow) : Prop where
  ordered : (rows.map RetainedRow.snap).Pairwise (SealSnap.Precedes file)
  good : ∀ r ∈ rows, r.snap.Good
  commits : rows.Pairwise fun r r' => r.commit < r'.commit
  fits : ∀ r ∈ rows, r.commit ≤ U64_MAX ∧ r.row.Fits

theorem RetainedRows.of_append {rows' : List RetainedRow} (h : RetainedRows file (rows ++ rows')) :
    RetainedRows file rows where
  ordered := by
    have hord := h.ordered
    rw [map_append] at hord
    exact (pairwise_append.mp hord).1
  good := fun r hr => h.good r (mem_append_left _ hr)
  commits := (pairwise_append.mp h.commits).1
  fits := fun r hr => h.fits r (mem_append_left _ hr)

/-- A pass with the rows `left` to come does not condemn commit `c`: it is not
    among them, or it and the rows after it are intact and read so far. -/
def HistorySealScan.Spares (file : SealedFile) (W : PageId → Prop) (c : CommitId)
    (left : List RetainedRow) (scan : HistorySealScan) : Prop :=
  (∀ r ∈ left, r.commit ≠ c)
    ∨ ∃ older row newer, left = older ++ row :: newer ∧ (∀ r ∈ older, r.commit ≠ c)
      ∧ scan.Ahead file (left.map RetainedRow.snap) ∧ scan.Backed file W
      ∧ ∀ r ∈ row :: newer, r.Intact file ∧ ∀ id ∈ r.snap.pages, W id

section Pass

variable {c : CommitId} {r : RetainedRow} {scan : HistorySealScan}

theorem RetainedRow.Intact.node (h : r.Intact file) (hpages : ∀ id ∈ r.snap.pages, W id)
    {root : PageId} (hroot : root ∈ r.snap.pages) (hrole : r.image.view.HasRole root .node) :
    W root ∧ file.view.HasRole root .node := by
  obtain ⟨page, hpage, hkind⟩ := hrole
  exact ⟨hpages root hroot, page, (SealStore.view_eq_of_lookup (h root hroot)).trans hpage, hkind⟩

/-- One row of a pass. -/
theorem scanRowBytes_spares (hW : file.view.WellLinked W) {left : List RetainedRow}
    (hrows : RetainedRows file (left ++ [r])) (hscan : scan.Spares file W c (left ++ [r])) :
    (∀ reached found t, scanRowBytes file (encodeCommitMeta r.row) scan
        = .ok (reached, some found) t → r.commit ≠ c)
      ∧ (∀ reached t, scanRowBytes file (encodeCommitMeta r.row) scan = .ok (reached, none) t →
        HistorySealScan.Spares file W c left t)
      ∧ ∀ e t, scanRowBytes file (encodeCommitMeta r.row) scan = .error e t →
        e.provesUnreadablePages = true → r.commit ≠ c := by
  have hmem : r ∈ left ++ [r] := mem_append_right _ (mem_singleton_self r)
  have hbytes : scanRowBytes file (encodeCommitMeta r.row) = scanHistoryRow file r.row := by
    unfold scanRowBytes
    rw [decodeCommitMeta_encodeCommitMeta (hrows.fits r hmem).2]
  rw [hbytes]
  rcases hscan with hother | ⟨older, row, newer, hleft, holder, hahead, hbacked, hintact⟩
  · refine ⟨fun _ _ _ _ => hother r hmem, fun _ _ _ => ?_, fun _ _ _ _ => hother r hmem⟩
    exact Or.inl fun r' hr' => hother r' (mem_append_left _ hr')
  · -- the row is at or after `c`, so it is intact
    obtain ⟨mid, hmid⟩ : ∃ mid, older ++ mid = left ∧ mid ++ [r] = row :: newer := by
      rcases eq_nil_or_concat newer with hnil | ⟨newer', last, hconcat⟩
      · rw [hnil] at hleft
        obtain ⟨h1, h2⟩ := append_inj' hleft rfl
        refine ⟨[], by rw [append_nil, h1], ?_⟩
        rw [hnil]
        exact h2
      · rw [concat_eq_append] at hconcat
        rw [hconcat, ← cons_append, ← append_assoc] at hleft
        obtain ⟨h1, h2⟩ := append_inj' hleft rfl
        refine ⟨row :: newer', h1.symm, ?_⟩
        rw [hconcat, h2]
        rfl
    have hr : r ∈ row :: newer := by
      rw [← hmid.2]
      exact mem_append_right _ (mem_singleton_self r)
    obtain ⟨hrin, hrW⟩ := hintact r hr
    have hgood := hrows.good r hmem
    have hordered := hrows.ordered
    rw [map_append] at hordered hahead
    have hstep := scanHistoryRow_step (m := r.row) hahead rfl fun a ha =>
      (pairwise_append.mp hordered).2.2 a ha r.snap (mem_singleton_self _)
    have hsafe := scanHistoryRow_backed hW (m := r.row)
      (fun h0 => hrin.node hrW (Or.inl ⟨h0, Reach.refl _⟩) (hgood.dataNode h0))
      (fun h0 => hrin.node hrW (Or.inr ⟨h0, Reach.refl _⟩) (hgood.catalogNode h0))
    refine ⟨fun reached found t hrun => ?_, fun reached t hrun => ?_, fun e t hrun hproves => ?_⟩
    · obtain ⟨q, hin, hq, hge⟩ := hstep.2 reached found t hrun
      exact absurd (hrin.sealed_before hgood hin hq) (Nat.not_lt.mpr hge)
    · have hnext := hstep.1
      have hkept := hsafe.keeps scan hbacked
      rw [hrun] at hnext hkept
      cases mid with
      | nil =>
        left
        rw [← hmid.1, append_nil]
        exact holder
      | cons row' newer' =>
        refine Or.inr ⟨older, row', newer', hmid.1.symm, holder, hnext, hkept, fun r' hr' => ?_⟩
        refine hintact r' ?_
        rw [← hmid.2]
        exact mem_append_left _ hr'
    · have hspares := hsafe.fails scan e t hbacked hrun
      rw [hspares] at hproves
      cases hproves

theorem resealedInBatch_spares (hW : file.view.WellLinked W) (prunedThrough : Option CommitId)
    (newest : List RetainedRow) :
    ∀ (left : List RetainedRow) (scan : HistorySealScan),
      RetainedRows file (left ++ newest.reverse) → scan.Spares file W c (left ++ newest.reverse) →
      ∀ found t, resealedInBatch file prunedThrough (newest.map RetainedRow.entry) scan
        = .ok found t → found ≠ some (some c)
          ∧ (found = none → HistorySealScan.Spares file W c left t) := by
  induction newest with
  | nil =>
    intro left scan _ hscan found t hrun
    obtain ⟨rfl, rfl⟩ := pure_eq_ok.mp hrun
    rw [reverse_nil, append_nil] at hscan
    exact ⟨nofun, fun _ => hscan⟩
  | cons r newest ih =>
    intro left scan hrows hscan found t hrun
    rw [reverse_cons, ← append_assoc] at hrows hscan
    have hfits := hrows.fits r (mem_append_right _ (mem_singleton_self r))
    obtain ⟨hevidence, hnone, herror⟩ := scanRowBytes_spares hW hrows hscan
    have hcommit : rowCommit r.entry.1 scan = .ok r.commit scan := by
      show rowCommit (historyKey r.commit) scan = _
      unfold rowCommit
      rw [historyRowCommit_historyKey hfits.1]
      rfl
    rw [map_cons] at hrun
    unfold resealedInBatch at hrun
    rw [bind_of_ok hcommit] at hrun
    split_ifs at hrun with hpruned
    · obtain ⟨rfl, rfl⟩ := pure_eq_ok.mp hrun
      exact ⟨nofun, nofun⟩
    · cases hrow : scanRowBytes file r.entry.2 scan with
      | error e u =>
        have hattempt : attempt (scanRowBytes file r.entry.2) scan = .ok (.error e) u := by
          unfold attempt
          rw [hrow]
        rw [bind_of_ok hattempt] at hrun
        dsimp only at hrun
        split_ifs at hrun with hproves
        · obtain ⟨rfl, rfl⟩ := pure_eq_ok.mp hrun
          refine ⟨fun h => ?_, nofun⟩
          exact herror e u hrow hproves (Option.some.inj (Option.some.inj h))
        · cases hrun
      | ok result u =>
        obtain ⟨reached, evidence⟩ := result
        have hattempt : attempt (scanRowBytes file r.entry.2) scan
            = .ok (.ok (reached, evidence)) u := by
          unfold attempt
          rw [hrow]
        rw [bind_of_ok hattempt] at hrun
        cases evidence with
        | some found' =>
          obtain ⟨rfl, rfl⟩ := pure_eq_ok.mp hrun
          refine ⟨fun h => ?_, nofun⟩
          exact hevidence reached found' u hrow (Option.some.inj (Option.some.inj h))
        | none =>
          dsimp only at hrun
          rw [get_bind] at hrun
          split_ifs at hrun with hvoid
          · obtain ⟨rfl, rfl⟩ := pure_eq_ok.mp hrun
            exact ⟨nofun, nofun⟩
          · exact ih left u hrows.of_append (hnone reached u hrow) found t hrun

theorem onScan_eq_ok {σ : Type} {x : ScanM α} {s t : RowScan σ} {a : α} (h : onScan x s = .ok a t) :
    ∃ scan, x s.scan = .ok a scan ∧ t = { s with scan } := by
  unfold onScan at h
  cases hx : x s.scan with
  | ok b scan =>
    rw [hx] at h
    cases h
    exact ⟨scan, rfl, rfl⟩
  | error e scan =>
    rw [hx] at h
    cases h

theorem onSource_eq_ok {σ : Type} {x : EStateM TreeError σ α} {s t : RowScan σ} {a : α}
    (h : onSource x s = .ok a t) :
    ∃ source, x s.source = .ok a source ∧ t = { s with source } := by
  unfold onSource at h
  cases hx : x s.source with
  | ok b source =>
    rw [hx] at h
    cases h
    exact ⟨source, rfl, rfl⟩
  | error e source =>
    rw [hx] at h
    cases h

theorem take_entries (left : List RetainedRow) (n : Nat) :
    (left.map RetainedRow.entry).reverse.take n = (left.reverse.take n).map RetainedRow.entry
      ∧ left = (left.reverse.drop n).reverse ++ (left.reverse.take n).reverse := by
  refine ⟨?_, ?_⟩
  · rw [← map_reverse, map_take]
  · rw [← reverse_append, take_append_drop, reverse_reverse]

theorem newestResealedFrom_spares (hW : file.view.WellLinked W) (prunedThrough : Option CommitId)
    {index : Image} (turns : Nat) :
    ∀ (left : List RetainedRow) (before : Option Bytes) (pass : RowScan Session),
      belowOpt before index.records = left.map RetainedRow.entry → RetainedRows file left →
      Readable pass.source index → pass.scan.Spares file W c left →
      ∀ found t, newestResealedFrom file collectRevBatchBefore prunedThrough turns before pass
        = .ok found t → found ≠ some c := by
  induction turns with
  | zero =>
    intro left before pass _ _ _ _ found t hrun
    cases hrun
  | succ turns ih =>
    intro left before pass hbefore hrows hread hscan found t hrun
    unfold newestResealedFrom at hrun
    obtain ⟨batch, pass', hsource, hrun⟩ := bind_eq_ok.mp hrun
    obtain ⟨source, hbatch, rfl⟩ := onSource_eq_ok hsource
    obtain ⟨hbatch, hquiet⟩ := (collectRevBatchBefore_returns hread before _).sound _ _ hbatch
    obtain ⟨htake, hsplit⟩ := take_entries left HISTORY_ROW_BATCH
    have hpage := hbatch
    rw [hbefore, htake] at hbatch
    obtain ⟨result, pass'', hscan', hrun⟩ := bind_eq_ok.mp hrun
    obtain ⟨scan', hscanned, rfl⟩ := onScan_eq_ok hscan'
    rw [hsplit] at hrows hscan
    rw [hbatch] at hscanned
    obtain ⟨hne, hnext⟩ := resealedInBatch_spares hW prunedThrough _ _ _ hrows hscan _ _ hscanned
    cases result with
    | some found' =>
      obtain ⟨rfl, rfl⟩ := pure_eq_ok.mp hrun
      exact fun h => hne (congrArg some h)
    | none =>
      dsimp only at hrun
      split_ifs at hrun with hlast
      · obtain ⟨rfl, rfl⟩ := pure_eq_ok.mp hrun
        exact nofun
      · refine ih _ _ _ ?_ hrows.of_append (hread.quiet hquiet) (hnext rfl) found t hrun
        -- a full batch has a last row, and the next batch starts below it
        cases hend : batch.getLast? with
        | none =>
          rw [getLast?_eq_none_iff.mp hend] at hlast
          exact absurd (by decide) hlast
        | some last =>
          rw [hpage] at hend
          have hrest := belowOpt_after_page hread.records_ascending hend
          rw [hbefore, ← map_reverse, ← map_drop] at hrest
          rw [map_reverse, ← hrest, reverse_reverse]
          rfl

end Pass

/-! ## §4. Stores -/

/-- The scan's file: the store's, with the pages whose reads meet an I/O error. -/
def SealStore.scanned (s : SealStore) (failing : List PageId) : SealedFile :=
  { s.file with failing }

theorem SealStore.Sound.retained (h : s.Sound) (failing : List PageId) :
    RetainedRows (s.scanned failing) s.rows where
  ordered := (pairwise_append.mp h.ordered).1.imp fun hp => hp.of_file fun _ hsince => hsince
  good := fun r hr => h.good r.snap (mem_append_left _ (mem_map_of_mem hr))
  commits := h.commits
  fits := fun r hr => ⟨Nat.le_trans (h.latest r hr) h.landed_fits.2.2.2, h.fits r hr⟩

theorem SealStore.Sound.ahead (h : s.Sound) (reader : SealHandle) (failing : List PageId) :
    (beginHistorySealScan reader s.landed.roots).Ahead (s.scanned failing)
      (s.rows.map RetainedRow.snap) where
  ledger := ⟨nofun, nofun⟩
  bound := nofun
  later := fun a ha =>
    have hp := h.precedes_landed a (mem_append_left _ ha)
    ⟨hp.dataRoot, hp.catalogRoot⟩

/-- **The seal-order proof condemns no intact row.**  After every run of
    commits, a scan over the newer rows, whatever came of each, has no evidence
    against a row whose pages are intact; and the pass over the history index
    gives a row up only where it or a newer one is stale. -/
theorem intact_rows_are_never_condemned (handle reader : SealHandle) (events : List SealEvent)
    (hlegal : Meets SealStore.step SealStore.Legal (SealStore.create handle) events)
    (failing : List PageId) (older : List RetainedRow) (row : RetainedRow)
    (newer : List RetainedRow)
    (hrows : (run SealStore.step (SealStore.create handle) events).rows = older ++ row :: newer)
    (history : Session) (index : Image) (hread : Readable history index)
    (hindex : index.records = (older ++ row :: newer).map RetainedRow.entry) :
    let s := run SealStore.step (SealStore.create handle) events
    let start := beginHistorySealScan reader s.landed.roots
    (row.Intact s.file → ∀ reached found t, scanHistoryRow (s.scanned failing) row.row
            (endState (scanRows (s.scanned failing) newer.reverse start))
          = .ok (reached, found) t → found = none)
      ∧ ∀ prunedThrough turns t,
        newestResealedHistoryRow (s.scanned failing) collectRevBatchBefore prunedThrough turns
            ⟨history, start⟩
          = .ok (some row.commit) t → ∃ r ∈ row :: newer, ¬ r.Intact s.file := by
  intro s start
  have hsound : s.Sound := SealStore.run_sound handle events hlegal
  have hretained := hsound.retained failing
  have hahead := hsound.ahead reader failing
  have hrows : s.rows = (older ++ [row]) ++ newer := by
    rw [append_assoc]
    exact hrows
  rw [hrows] at hretained hahead
  have hmem : row ∈ older ++ [row] := mem_append_right _ (mem_singleton_self row)
  refine ⟨fun hintact reached found t hrun => ?_, fun prunedThrough turns t hrun => ?_⟩
  · have hscan := @scanRows_ahead (s.scanned failing) newer.reverse (older ++ [row]) start
      (by rw [reverse_reverse]; exact hretained.ordered)
      (by rw [reverse_reverse]; exact hahead)
    rw [map_append] at hscan
    have hordered := hretained.of_append.ordered
    rw [map_append] at hordered
    have hstep := scanHistoryRow_step (m := row.row) hscan rfl fun a ha =>
      (pairwise_append.mp hordered).2.2 a ha row.snap (mem_singleton_self _)
    cases found with
    | none => rfl
    | some found =>
      obtain ⟨q, hin, hq, hge⟩ := hstep.2 reached found t hrun
      have hlt := @RetainedRow.Intact.sealed_before (s.scanned failing) _ hintact
        (hretained.of_append.good row hmem) q hin hq
      exact absurd hlt (Nat.not_lt.mpr hge)
  · by_contra hnone
    have hintact : ∀ r ∈ row :: newer, r.Intact (s.scanned failing) :=
      fun r hr => by_contra fun hr' => hnone ⟨r, hr, hr'⟩
    rw [append_assoc, singleton_append] at hretained hahead
    have hordered := hretained.ordered
    rw [map_append] at hordered
    have hW := wellLinked_of_intact (pairwise_append.mp hordered).2.1
      (fun r hr => hretained.good r (mem_append_right _ hr)) hintact
    have holder : ∀ r ∈ older, r.commit ≠ row.commit := fun r hr =>
      Nat.ne_of_lt ((pairwise_append.mp hretained.commits).2.2 r hr row mem_cons_self)
    have hspares : start.Spares (s.scanned failing)
        (fun id => ∃ r ∈ row :: newer, id ∈ r.snap.pages) row.commit (older ++ row :: newer) :=
      Or.inr ⟨older, row, newer, rfl, holder, hahead,
        fun z _ hz => absurd hz (AList.notMem_empty z),
        fun r hr => ⟨hintact r hr, fun id hid => ⟨r, hr, hid⟩⟩⟩
    unfold newestResealedHistoryRow at hrun
    rw [get_bind] at hrun
    split_ifs at hrun with hvoid
    · cases hrun
    · exact newestResealedFrom_spares hW prunedThrough turns (older ++ row :: newer) none
        ⟨history, start⟩ hindex hretained hread hspares _ _ hrun rfl

/-! ### A run of two commits -/

theorem PageView.rootedPages_leaf {view : PageView} {root : PageId} (hroot : root ≠ 0)
    (h : view.links root = []) : view.rootedPages (root, 0) = {root} := by
  ext id
  constructor
  · rintro (hid | hid)
    · exact PageView.eq_root_of_no_links h hid
    · exact absurd rfl hid.1
  · intro hid
    rw [Set.mem_singleton_iff.mp hid]
    exact Or.inl ⟨hroot, Reach.refl root⟩

/-- A session that wrote one leaf may publish it as its data tree. -/
theorem SealStore.publishes_leaf {root : PageId} (hfirst : FIRST_DATA_PAGE ≤ root)
    (hleaf : s.file.view root = some (.leaf Leaf.new)) (hwritten : root ∈ s.written)
    (hcatalog : s.landed.roots.2 = 0) : s.Publishes (root, 0) := by
  have hroot : root ≠ 0 := fun h0 => by
    rw [h0] at hfirst
    exact absurd hfirst (by decide)
  have hlinks : s.file.view.links root = [] := PageView.links_eq hleaf
  have hpages := PageView.rootedPages_leaf hroot hlinks
  have honly : ∀ x ∈ s.file.view.rootedPages (root, 0), x = root := by
    intro x hx
    rw [hpages] at hx
    exact hx
  exact {
    dataRoot := Or.inr hwritten
    catalogRoot := Or.inl hcatalog.symm
    covered := fun id hid => Or.inl (by rw [honly id hid]; exact hwritten)
    linked := {
      allocatable := fun x hx => by rw [honly x hx]; exact hfirst
      links := fun x page hx hpage y hy => by
        rw [honly x hx, hleaf] at hpage
        cases hpage
        exact absurd hy not_mem_nil
      single := fun x y _ hx hy _ _ _ => (honly x hx).trans (honly y hy).symm }
    dataNode := fun _ => ⟨_, hleaf, rfl⟩
    catalogNode := fun h => absurd rfl h
    whole := fun x hx y hy => by
      rw [honly x hx, hlinks] at hy
      exact absurd hy not_mem_nil }

/-- The row of a commit whose data tree is one leaf. -/
def leafRow (root : PageId) : CommitHistoryMeta where
  activeRootPageId := root
  catalogRootPageId := 0
  freeListRootPageId := 0
  nextPageId := root + 1
  unixSeconds := 0

/-- A handle on a store that was never rekeyed. -/
def freshHandle : SealHandle where
  mode := .standalone
  mkEpoch := 0
  cipherId := .aes256Gcm
  fileId := [1, 2, 3, 4, 5, 6, 7, 8]

/-- Two commits; the second moves the tree from page 4 to page 5. -/
def twoCommits : List SealEvent :=
  [.flush [(4, .leaf Leaf.new)] [], .commit (leafRow 4) false 0,
    .flush [(5, .leaf Leaf.new)] [], .commit (leafRow 5) false 0]

/-- The store after the first of them. -/
def oneCommitStore : SealStore :=
  run SealStore.step (SealStore.create freshHandle) (twoCommits.take 2)

/-- The store after both. -/
def twoCommitsStore : SealStore :=
  run SealStore.step (SealStore.create freshHandle) twoCommits

theorem twoCommits_legal :
    Meets SealStore.step SealStore.Legal (SealStore.create freshHandle) twoCommits := by
  have hfits : ∀ root, root < U64_MAX → (leafRow root).Fits := fun root hroot =>
    ⟨Nat.le_of_lt hroot, Nat.zero_le _, Nat.zero_le _, hroot, Nat.zero_le _⟩
  refine ⟨?_, ⟨?_, hfits 4 (by decide), by decide⟩, ?_, ⟨?_, hfits 5 (by decide), by decide⟩, trivial⟩
  · rintro id - (hid | hid)
    · exact hid.1 rfl
    · exact hid.1 rfl
  · exact SealStore.publishes_leaf (by decide) (by decide +kernel) (by decide +kernel) rfl
  · intro id hid hlive
    have hid : id = 5 := by simpa using hid
    have hpages : oneCommitStore.file.view.rootedPages (4, 0) = {4} :=
      PageView.rootedPages_leaf (by decide) (by decide +kernel)
    have hlive : id ∈ oneCommitStore.file.view.rootedPages (4, 0) := hlive
    rw [hpages] at hlive
    have hlive : id = 4 := hlive
    rw [hid] at hlive
    exact absurd hlive (by decide)
  · exact SealStore.publishes_leaf (by decide) (by decide +kernel) (by decide +kernel) rfl

/-- The rows of the two commits. -/
def firstRow : RetainedRow where
  commit := 1
  row := leafRow 4
  image := oneCommitStore.file
  sealedBelow := 2

def secondRow : RetainedRow where
  commit := 2
  row := leafRow 5
  image := twoCommitsStore.file
  sealedBelow := 3

/-- The history index of that store. -/
def twoCommitsIndex : Image :=
  .tree (.leaf 6 [(historyKey 1, ⟨encodeCommitMeta (leafRow 4), []⟩),
    (historyKey 2, ⟨encodeCommitMeta (leafRow 5), []⟩)] : PageTree 0)

/-- A session on it. -/
def twoCommitsHistory : Session :=
  { BTree.open 4096 6 7 none with
    pager :=
      { dirty := []
        disk := [(6, .leaf { Leaf.new with records :=
          [(historyKey 1, .inline (encodeCommitMeta (leafRow 4))),
            (historyKey 2, .inline (encodeCommitMeta (leafRow 5)))] })]
        written := []
        faults := [] }
    cache := []
    consumed := [] }

theorem twoCommitsHistory_readable : Readable twoCommitsHistory twoCommitsIndex where
  rep := by
    intro e he
    rw [mem_singleton.mp he]
    rfl
  ordered := by
    show InOrder [.entry (historyKey 1) _, .entry (historyKey 2) _]
    decide
  nodup := by decide
  zero := by decide
  paged := fun id hid => absurd hid (AList.notMem_empty id)
  values := by
    intro r hr
    have hr : r ∈ [(historyKey 1, (⟨encodeCommitMeta (leafRow 4), []⟩ : Stored)),
      (historyKey 2, ⟨encodeCommitMeta (leafRow 5), []⟩)] := hr
    simp only [mem_cons, not_mem_nil, or_false] at hr
    rcases hr with rfl | rfl <;> exact ⟨trivial, nodup_nil, not_mem_nil⟩
  root := rfl

/-- The older row of the two is intact and never condemned. -/
theorem intact_rows_are_never_condemned_two :
    Meets SealStore.step SealStore.Legal (SealStore.create freshHandle) twoCommits
      ∧ twoCommitsStore.rows = [] ++ firstRow :: [secondRow]
      ∧ firstRow.Intact twoCommitsStore.file
      ∧ ∀ reached found t, scanHistoryRow (twoCommitsStore.scanned []) firstRow.row
            (endState (scanRows (twoCommitsStore.scanned []) [secondRow]
              (beginHistorySealScan freshHandle twoCommitsStore.landed.roots)))
          = .ok (reached, found) t → found = none := by
  have hintact : firstRow.Intact twoCommitsStore.file := by
    intro id hid
    have hpages : firstRow.snap.pages = {4} :=
      @PageView.rootedPages_leaf firstRow.image.view 4 (by decide) (by decide +kernel)
    rw [hpages] at hid
    rw [Set.mem_singleton_iff.mp hid]
    decide +kernel
  exact ⟨twoCommits_legal, by rfl, hintact,
    (intact_rows_are_never_condemned freshHandle freshHandle twoCommits twoCommits_legal []
      [] firstRow [secondRow] (by rfl) twoCommitsHistory twoCommitsIndex
      twoCommitsHistory_readable rfl).1 hintact⟩

end Pagedb
