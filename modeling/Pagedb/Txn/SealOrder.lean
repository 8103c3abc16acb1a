/-
  Pagedb.Txn.SealOrder — the seal-order proof of `txn/db/catalog/history_seals.rs`
  over every run of commits.

  A store is a file of sealed pages, a nonce counter and the rows its commits
  left.  A session flushes pages, in page-id order and each with the next
  counter, and then publishes a header or gives up.  Commits are copy-on-write:
  what a session writes no published root reaches, a changed root is a page the
  session wrote, and a chain is written as a whole.  Pages that only older rows
  reach may be overwritten; that is how a row becomes stale.

  A row remembers the file as it was when its header landed, so that "still
  holds the bytes it held" can be said of it.

  Main results:
    * `SealStore.Sound` — what holds after every run of commits: a page reached
      by a header and sealed before an older header was reached by that one;
    * `SealStore.Sound.step`, `SealStore.run_sound` — one step, and a run.
-/
import Pagedb.Txn.HistorySeals

namespace Pagedb

open Lib List

/-! ## §1. A store and its commits -/

/-- The pages two roots reach. -/
def PageView.rootedPages (view : PageView) (roots : PageId × PageId) : Set PageId :=
  view.treePages roots.1 ∪ view.treePages roots.2

/-- `main.db` when a header landed: its pages, the header's data and catalog
    roots, and the counter every page of it was sealed below. -/
structure SealSnap where
  image : SealedFile
  roots : PageId × PageId
  sealedBelow : Nat

/-- A row of the history index, with the file as it was when its commit landed. -/
structure RetainedRow where
  commit : CommitId
  row : CommitHistoryMeta
  image : SealedFile
  sealedBelow : Nat

/-- The two roots a row names. -/
def CommitHistoryMeta.roots (m : CommitHistoryMeta) : PageId × PageId :=
  (m.activeRootPageId, m.catalogRootPageId)

/-- The header a row was written for. -/
def RetainedRow.snap (r : RetainedRow) : SealSnap := ⟨r.image, r.row.roots, r.sealedBelow⟩

/-- A store between two steps.  `written` are the pages the session at work has
    flushed, `landed` is the last header. -/
structure SealStore where
  handle : SealHandle
  file : SealedFile
  counter : Nat
  written : List PageId
  landed : SealSnap
  nextPageId : PageId
  latestCommitId : CommitId
  rows : List RetainedRow

/-- A fresh store. -/
def SealStore.create (handle : SealHandle) : SealStore where
  handle
  file := ⟨[], []⟩
  counter := 1
  written := []
  landed := ⟨⟨[], []⟩, (0, 0), 1⟩
  nextPageId := FIRST_DATA_PAGE
  latestCommitId := 0
  rows := []

/-- One step of the store. -/
inductive SealEvent where
  /-- `flush_file`.  The write of a `torn` page was cut short. -/
  | flush (batch : List (PageId × Page)) (torn : List PageId)
  /-- The header of a catalog-only commit; a segment repack takes a commit id. -/
  | header (roots : PageId × PageId) (nextPageId : PageId) (takesCommitId : Bool)
  /-- The header of a commit, with its row, a row the commit before it is owed,
      and the rows the retention policy drops. -/
  | commit (row : CommitHistoryMeta) (owed : Bool) (prunedThrough : CommitId)
  /-- The session is given up. -/
  | abort
  /-- The store is opened again, its generator past every counter it issued. -/
  | reopen (counter : Nat)

namespace SealStore

/-- The stamp of a page sealed with a counter. -/
def stamp (s : SealStore) (counter : Nat) : SealStamp where
  identity := s.handle.fileId.take 6
  counter
  mkEpoch := s.handle.mkEpoch
  cipherId := s.handle.cipherId

/-- Seal pages one after the other, each with the next counter. -/
def sealPages (s : SealStore) : Nat → List (PageId × Page) → List (PageId × SealedRead)
  | _, [] => []
  | counter, (id, page) :: pages =>
    (id, { page, stamp := s.stamp counter }) :: sealPages s (counter + 1) pages

/-- `flush_file`: the dirty pages go out in page-id order. -/
def flush (s : SealStore) (batch : List (PageId × Page)) (torn : List PageId) : SealStore :=
  let sealed := s.sealPages s.counter (batch.mergeSort fun a b => decide (a.1 ≤ b.1))
  { s with
    file := { s.file with
      pages := (sealed ++ s.file.pages).filter fun e => !torn.contains e.1 }
    counter := s.counter + batch.length
    written := s.written ++ batch.map Prod.fst }

/-- The header now on disk. -/
def snapAt (s : SealStore) (roots : PageId × PageId) : SealSnap := ⟨s.file, roots, s.counter⟩

/-- A header lands. -/
def land (s : SealStore) (roots : PageId × PageId) (nextPageId : PageId)
    (latestCommitId : CommitId) : SealStore :=
  { s with written := [], landed := s.snapAt roots, nextPageId, latestCommitId }

/-- The row owed to the commit before this one: a segment repack publishes a
    commit id and writes none. -/
def owedRow (s : SealStore) (freeListRootPageId unixSeconds : Nat) : RetainedRow where
  commit := s.latestCommitId
  row := {
    activeRootPageId := s.landed.roots.1
    catalogRootPageId := s.landed.roots.2
    freeListRootPageId
    nextPageId := s.nextPageId
    unixSeconds }
  image := s.landed.image
  sealedBelow := s.landed.sealedBelow

/-- The row of the commit being published. -/
def newRow (s : SealStore) (row : CommitHistoryMeta) : RetainedRow where
  commit := s.latestCommitId + 1
  row
  image := s.file
  sealedBelow := s.counter

/-- The rows a commit appends. -/
def appended (s : SealStore) (row : CommitHistoryMeta) (owed : Bool) : List RetainedRow :=
  (if owed && s.rows.all fun r => r.commit != s.latestCommitId then
    [s.owedRow row.freeListRootPageId row.unixSeconds]
   else []) ++ [s.newRow row]

/-- One step. -/
def step (s : SealStore) : SealEvent → SealStore
  | .flush batch torn => s.flush batch torn
  | .header roots next takesCommitId =>
    s.land roots next (if takesCommitId then s.latestCommitId + 1 else s.latestCommitId)
  | .commit row owed prunedThrough =>
    { s.land row.roots row.nextPageId (s.latestCommitId + 1) with
      rows := (s.rows ++ s.appended row owed).filter fun r => decide (prunedThrough < r.commit) }
  | .abort => { s with written := [] }
  | .reopen counter => { s with written := [], counter := max s.counter counter }

/-- The pages the published roots reach. -/
def live (s : SealStore) : Set PageId := s.file.view.rootedPages s.landed.roots

/-- What copy-on-write makes of a header's roots. -/
structure Publishes (s : SealStore) (roots : PageId × PageId) : Prop where
  /-- A changed root is a page the session wrote. -/
  dataRoot : roots.1 = s.landed.roots.1 ∨ roots.1 ∈ s.written
  catalogRoot : roots.2 = s.landed.roots.2 ∨ roots.2 ∈ s.written
  /-- A page of the new trees is new, or one of the old trees. -/
  covered : ∀ id ∈ s.file.view.rootedPages roots, id ∈ s.written ∨ id ∈ s.live
  /-- The new trees are trees. -/
  linked : s.file.view.WellLinked (· ∈ s.file.view.rootedPages roots)
  dataNode : roots.1 ≠ 0 → s.file.view.HasRole roots.1 .node
  catalogNode : roots.2 ≠ 0 → s.file.view.HasRole roots.2 .node
  /-- A chain is written as a whole. -/
  whole : ∀ x ∈ s.file.view.rootedPages roots, ∀ y ∈ s.file.view.links x,
    s.file.view.HasRole y .chainPage → x ∈ s.written → y ∈ s.written

/-- The steps of ordinary commits. -/
def Legal (s : SealStore) : SealEvent → Prop
  | .flush batch torn => ∀ id, id ∈ batch.map Prod.fst ∨ id ∈ torn → id ∉ s.live
  | .header roots next takesCommitId =>
    s.Publishes roots ∧ roots.1 ≤ U64_MAX ∧ roots.2 ≤ U64_MAX ∧ next ≤ U64_MAX
      ∧ (takesCommitId → s.latestCommitId + 1 ≤ U64_MAX)
  | .commit row _ _ => s.Publishes row.roots ∧ row.Fits ∧ s.latestCommitId + 1 ≤ U64_MAX
  | .abort => True
  | .reopen _ => True

end SealStore

/-! ## §2. What one header says about a later one -/

section Views

variable {view view' : PageView} {roots : PageId × PageId}

theorem PageView.links_congr {id : PageId} (h : view' id = view id) :
    view'.links id = view.links id := by
  unfold PageView.links
  rw [h]

/-- A view that agrees on what two roots reach reaches the same from them. -/
theorem PageView.rootedPages_congr (h : ∀ id ∈ view.rootedPages roots, view' id = view id) :
    view'.rootedPages roots = view.rootedPages roots := by
  have htree : ∀ root, (∀ id ∈ view.treePages root, view' id = view id) →
      view'.treePages root = view.treePages root := by
    intro root hroot
    ext id
    by_cases hzero : root = 0
    · exact ⟨fun hid => absurd hzero hid.1, fun hid => absurd hzero hid.1⟩
    · have hreach := Lib.reach_congr_iff (b := id) fun x hx =>
        PageView.links_congr (hroot x ⟨hzero, hx⟩)
      exact ⟨fun hid => ⟨hzero, hreach.mp hid.2⟩, fun hid => ⟨hzero, hreach.mpr hid.2⟩⟩
  unfold PageView.rootedPages
  rw [htree roots.1 fun id hid => h id (Or.inl hid), htree roots.2 fun id hid => h id (Or.inr hid)]

theorem PageView.rootedPages_link {x y : PageId} (hx : x ∈ view.rootedPages roots)
    (hy : y ∈ view.links x) : y ∈ view.rootedPages roots := by
  rcases hx with hx | hx
  · exact Or.inl ⟨hx.1, hx.2.tail hy⟩
  · exact Or.inr ⟨hx.1, hx.2.tail hy⟩

end Views

/-- The pages a header's roots reached when it landed. -/
def SealSnap.pages (a : SealSnap) : Set PageId := a.image.view.rootedPages a.roots

/-- A header over well-formed trees. -/
structure SealSnap.Good (a : SealSnap) : Prop where
  below : ∀ id read, a.image.pages.lookup id = some read → read.stamp.counter < a.sealedBelow
  linked : a.image.view.WellLinked (· ∈ a.pages)
  dataNode : a.roots.1 ≠ 0 → a.image.view.HasRole a.roots.1 .node
  catalogNode : a.roots.2 ≠ 0 → a.image.view.HasRole a.roots.2 .node

/-- Whatever seal the page has now, it is no older than the counter. -/
def SealedFile.SealedSince (file : SealedFile) (counter : Nat) (id : PageId) : Prop :=
  ∀ read, file.pages.lookup id = some read → counter ≤ read.stamp.counter

/-- `b` landed after `a`, or is it.  A root that changed was sealed since; what
    `b` reaches and was sealed before, `a` reached; and a chain page sealed
    before has its predecessor sealed before. -/
structure SealSnap.Precedes (file : SealedFile) (a b : SealSnap) : Prop where
  bound : a.sealedBelow ≤ b.sealedBelow
  dataRoot : b.roots.1 = a.roots.1 ∨ file.SealedSince a.sealedBelow b.roots.1
  catalogRoot : b.roots.2 = a.roots.2 ∨ file.SealedSince a.sealedBelow b.roots.2
  lineage : ∀ id read, id ∈ b.pages → b.image.pages.lookup id = some read →
    read.stamp.counter < a.sealedBelow → id ∈ a.pages ∧ a.image.pages.lookup id = some read
  chain : ∀ x y rx ry, x ∈ b.pages → y ∈ b.image.view.links x →
    b.image.view.HasRole y .chainPage → b.image.pages.lookup x = some rx →
    b.image.pages.lookup y = some ry → ry.stamp.counter < a.sealedBelow →
    rx.stamp.counter < a.sealedBelow

theorem SealSnap.Good.precedes_self {file : SealedFile} {a : SealSnap} (h : a.Good) :
    a.Precedes file a where
  bound := Nat.le_refl _
  dataRoot := Or.inl rfl
  catalogRoot := Or.inl rfl
  lineage := fun _ _ hid hlook _ => ⟨hid, hlook⟩
  chain := fun x _ rx _ _ _ _ hx _ _ => h.below x rx hx

theorem SealSnap.Precedes.of_file {file file' : SealedFile} {a b : SealSnap} (h : a.Precedes file b)
    (hgrow : ∀ id, file.SealedSince a.sealedBelow id → file'.SealedSince a.sealedBelow id) :
    a.Precedes file' b where
  bound := h.bound
  dataRoot := h.dataRoot.imp_right (hgrow _)
  catalogRoot := h.catalogRoot.imp_right (hgrow _)
  lineage := h.lineage
  chain := h.chain

/-! ## §3. The invariant of a run -/

namespace SealStore

/-- The headers the store remembers, oldest first. -/
def snaps (s : SealStore) : List SealSnap := s.rows.map RetainedRow.snap ++ [s.landed]

/-- What holds after every run of commits. -/
structure Sound (s : SealStore) : Prop where
  below : ∀ id read, s.file.pages.lookup id = some read → read.stamp.counter < s.counter
  landed_le : s.landed.sealedBelow ≤ s.counter
  written : ∀ id ∈ s.written, s.file.SealedSince s.landed.sealedBelow id
  kept : ∀ id ∈ s.landed.pages, s.file.pages.lookup id = s.landed.image.pages.lookup id
  good : ∀ a ∈ s.snaps, a.Good
  ordered : s.snaps.Pairwise (SealSnap.Precedes s.file)
  commits : s.rows.Pairwise fun r r' => r.commit < r'.commit
  latest : ∀ r ∈ s.rows, r.commit ≤ s.latestCommitId
  fits : ∀ r ∈ s.rows, r.row.Fits
  landed_fits : s.landed.roots.1 ≤ U64_MAX ∧ s.landed.roots.2 ≤ U64_MAX ∧ s.nextPageId ≤ U64_MAX
    ∧ s.latestCommitId ≤ U64_MAX

variable {s : SealStore}

variable {id : PageId} {c : Nat} {batch : List (PageId × Page)} {torn : List PageId}
  {roots : PageId × PageId}

theorem view_eq_of_lookup {file file' : SealedFile}
    (h : file.pages.lookup id = file'.pages.lookup id) : file.view id = file'.view id := by
  unfold SealedFile.view
  rw [h]

theorem Sound.live_eq (h : s.Sound) : s.live = s.landed.pages :=
  PageView.rootedPages_congr fun id hid => view_eq_of_lookup (h.kept id hid)

/-! ### Flushes -/

theorem mem_sealPages {pages : List (PageId × Page)} :
    ∀ e ∈ s.sealPages c pages, e.1 ∈ pages.map Prod.fst ∧ c ≤ e.2.stamp.counter
      ∧ e.2.stamp.counter < c + pages.length := by
  induction pages generalizing c with
  | nil => exact nofun
  | cons p pages ih =>
    intro e he
    rcases mem_cons.mp he with rfl | he
    · refine ⟨mem_cons_self, Nat.le_refl c, ?_⟩
      show c < c + (pages.length + 1)
      omega
    · obtain ⟨hmem, hlow, hhigh⟩ := ih e he
      refine ⟨mem_cons_of_mem _ hmem, Nat.le_of_succ_le hlow, ?_⟩
      rw [length_cons]
      omega

theorem keys_sealPages {pages : List (PageId × Page)} :
    (s.sealPages c pages).map Prod.fst = pages.map Prod.fst := by
  induction pages generalizing c with
  | nil => rfl
  | cons p pages ih =>
    show p.1 :: (s.sealPages (c + 1) pages).map Prod.fst = p.1 :: pages.map Prod.fst
    rw [ih]

/-- What a flush leaves under an id: a page of the batch with a new seal, or what
    was there. -/
theorem flush_lookup {read : SealedRead} (h : (s.flush batch torn).file.pages.lookup id = some read) :
    (s.counter ≤ read.stamp.counter ∧ read.stamp.counter < s.counter + batch.length)
      ∨ (id ∉ batch.map Prod.fst ∧ s.file.pages.lookup id = some read) := by
  have h : ((s.sealPages s.counter (batch.mergeSort fun a b => decide (a.1 ≤ b.1))
      ++ s.file.pages).filter fun e => !torn.contains e.1).lookup id = some read := h
  rw [Lib.lookup_filter_key (fun k => !torn.contains k)] at h
  by_cases htorn : (!torn.contains id) = true
  · rw [if_pos htorn, lookup_append] at h
    cases hnew : (s.sealPages s.counter (batch.mergeSort fun a b => decide (a.1 ≤ b.1))).lookup id with
    | some found =>
      rw [hnew] at h
      cases h
      left
      obtain ⟨l₁, l₂, hsplit, -⟩ := lookup_eq_some_iff.mp hnew
      have hmem : (id, read) ∈ s.sealPages s.counter
          (batch.mergeSort fun a b => decide (a.1 ≤ b.1)) := by
        rw [hsplit]
        exact mem_append_right _ mem_cons_self
      obtain ⟨-, hlow, hhigh⟩ := mem_sealPages _ hmem
      rw [length_mergeSort] at hhigh
      exact ⟨hlow, hhigh⟩
    | none =>
      rw [hnew] at h
      right
      refine ⟨fun hmem => ?_, h⟩
      have hkey : id ∈ (s.sealPages s.counter
          (batch.mergeSort fun a b => decide (a.1 ≤ b.1))).map Prod.fst := by
        rw [keys_sealPages]
        exact ((mergeSort_perm batch _).map Prod.fst).mem_iff.mpr hmem
      obtain ⟨e, he, hid⟩ := mem_map.mp hkey
      have hne := lookup_eq_none_iff.mp hnew e he
      rw [hid] at hne
      simp at hne
  · rw [if_neg htorn] at h
    cases h

/-- A page that is neither in the batch nor torn stays as it is. -/
theorem flush_lookup_other (hbatch : id ∉ batch.map Prod.fst) (htorn : id ∉ torn) :
    (s.flush batch torn).file.pages.lookup id = s.file.pages.lookup id := by
  show ((s.sealPages s.counter (batch.mergeSort fun a b => decide (a.1 ≤ b.1))
      ++ s.file.pages).filter fun e => !torn.contains e.1).lookup id = _
  rw [Lib.lookup_filter_key (fun k => !torn.contains k),
    if_pos (by simpa using htorn), lookup_append]
  have hnew : (s.sealPages s.counter
      (batch.mergeSort fun a b => decide (a.1 ≤ b.1))).lookup id = none := by
    refine lookup_eq_none_iff.mpr fun e he => ?_
    have hmem : e.1 ∈ (s.sealPages s.counter
        (batch.mergeSort fun a b => decide (a.1 ≤ b.1))).map Prod.fst := mem_map_of_mem he
    rw [keys_sealPages, ((mergeSort_perm batch _).map Prod.fst).mem_iff] at hmem
    refine bne_iff_ne.mpr fun hid => hbatch ?_
    rw [hid]
    exact hmem
  rw [hnew]
  rfl

theorem flush_sealedSince (hc : c ≤ s.counter) (h : s.file.SealedSince c id) :
    (s.flush batch torn).file.SealedSince c id := by
  intro read hread
  rcases flush_lookup hread with ⟨hlow, -⟩ | ⟨-, hold⟩
  · exact Nat.le_trans hc hlow
  · exact h read hold

variable (h : s.Sound)

include h

theorem Sound.flush (hlegal : s.Legal (.flush batch torn)) :
    (s.flush batch torn).Sound where
  below := by
    intro id read hread
    show read.stamp.counter < s.counter + batch.length
    rcases flush_lookup hread with ⟨-, hhigh⟩ | ⟨-, hold⟩
    · exact hhigh
    · exact Nat.lt_of_lt_of_le (h.below id read hold) (Nat.le_add_right _ _)
  landed_le := Nat.le_trans h.landed_le (Nat.le_add_right _ _)
  written := by
    intro id hid read hread
    rcases flush_lookup hread with ⟨hlow, -⟩ | ⟨hbatch, hold⟩
    · exact Nat.le_trans h.landed_le hlow
    · rcases mem_append.mp hid with hid | hid
      · exact h.written id hid read hold
      · exact absurd hid hbatch
  kept := by
    intro id hid
    have hlive : id ∈ s.live := by
      rw [h.live_eq]
      exact hid
    rw [flush_lookup_other (fun hb => hlegal id (Or.inl hb) hlive)
      (fun ht => hlegal id (Or.inr ht) hlive)]
    exact h.kept id hid
  good := h.good
  ordered := by
    refine h.ordered.imp_of_mem fun {a b} ha hb hab => hab.of_file fun id => ?_
    refine flush_sealedSince (Nat.le_trans ?_ h.landed_le)
    -- every header remembered landed no later than the last one
    rcases mem_concat.mp ha with ha | rfl
    · exact ((pairwise_append.mp h.ordered).2.2 a ha s.landed (mem_singleton_self _)).bound
    · exact Nat.le_refl _
  commits := h.commits
  latest := h.latest
  fits := h.fits
  landed_fits := h.landed_fits

/-! ### Headers -/

theorem Publishes.good (hp : s.Publishes roots) : (s.snapAt roots).Good where
  below := h.below
  linked := hp.linked
  dataNode := hp.dataNode
  catalogNode := hp.catalogNode

/-- A header that precedes the last one precedes the next one. -/
theorem Publishes.precedes (hp : s.Publishes roots) {a : SealSnap}
    (ha : a.Precedes s.file s.landed) : a.Precedes s.file (s.snapAt roots) := by
  have hbound : a.sealedBelow ≤ s.landed.sealedBelow := ha.bound
  have hnew : ∀ id ∈ s.written, s.file.SealedSince a.sealedBelow id :=
    fun id hid read hread => Nat.le_trans hbound (h.written id hid read hread)
  have hlive : ∀ id ∈ s.live, id ∈ s.landed.pages
      ∧ s.file.pages.lookup id = s.landed.image.pages.lookup id := by
    intro id hid
    rw [h.live_eq] at hid
    exact ⟨hid, h.kept id hid⟩
  refine ⟨Nat.le_trans hbound h.landed_le, ?_, ?_, ?_, ?_⟩
  · rcases hp.dataRoot with hsame | hwritten
    · show roots.1 = a.roots.1 ∨ s.file.SealedSince a.sealedBelow roots.1
      rw [hsame]
      exact ha.dataRoot
    · exact Or.inr (hnew _ hwritten)
  · rcases hp.catalogRoot with hsame | hwritten
    · show roots.2 = a.roots.2 ∨ s.file.SealedSince a.sealedBelow roots.2
      rw [hsame]
      exact ha.catalogRoot
    · exact Or.inr (hnew _ hwritten)
  · intro id read hid hread hold
    rcases hp.covered id hid with hwritten | hl
    · exact absurd (hnew id hwritten read hread) (Nat.not_le.mpr hold)
    · obtain ⟨hpages, hlook⟩ := hlive id hl
      exact ha.lineage id read hpages (by rw [← hlook]; exact hread) hold
  · intro x y rx ry hx hy hrole hlx hly hold
    -- the chain page is old, so the session that wrote its predecessor is old
    have hynew : y ∉ s.written := fun hw =>
      absurd (hnew y hw ry hly) (Nat.not_le.mpr hold)
    have hxnew : x ∉ s.written := fun hw => hynew (hp.whole x hx y hy hrole hw)
    have hyin : y ∈ (s.snapAt roots).pages := PageView.rootedPages_link hx hy
    obtain ⟨hxp, hxl⟩ := hlive x ((hp.covered x hx).resolve_left hxnew)
    obtain ⟨hyp, hyl⟩ := hlive y ((hp.covered y hyin).resolve_left hynew)
    refine ha.chain x y rx ry hxp ?_ ?_ (by rw [← hxl]; exact hlx) (by rw [← hyl]; exact hly) hold
    · rw [← PageView.links_congr (view_eq_of_lookup hxl)]
      exact hy
    · obtain ⟨page, hpage, hkind⟩ := hrole
      exact ⟨page, by rw [← view_eq_of_lookup hyl]; exact hpage, hkind⟩

theorem Sound.precedes_landed : ∀ a ∈ s.snaps, a.Precedes s.file s.landed := by
  intro a ha
  rcases mem_concat.mp ha with hrow | rfl
  · exact (pairwise_append.mp h.ordered).2.2 a hrow s.landed (mem_singleton_self _)
  · exact (h.good s.landed mem_concat_self).precedes_self

/-- All headers remembered, with the next one behind them twice: as a row and as
    the last header. -/
theorem Publishes.pairwise (hp : s.Publishes roots) :
    (s.snaps ++ [s.snapAt roots, s.snapAt roots]).Pairwise (SealSnap.Precedes s.file) := by
  refine pairwise_append.mpr ⟨h.ordered, ?_, fun a ha b hb => ?_⟩
  · refine pairwise_cons.mpr ⟨fun b hb => ?_, pairwise_singleton _ _⟩
    rw [mem_singleton.mp hb]
    exact (hp.good h).precedes_self
  · have hb : b = s.snapAt roots := by
      rcases mem_cons.mp hb with hb | hb
      · exact hb
      · exact mem_singleton.mp hb
    rw [hb]
    exact hp.precedes h (h.precedes_landed a ha)

/-- A header lands, and some of the rows known then are kept. -/
theorem Publishes.sound (hp : s.Publishes roots) {next : PageId} {latest : CommitId}
    {rows : List RetainedRow}
    (hrows : (rows.map RetainedRow.snap).Sublist (s.snaps ++ [s.snapAt roots]))
    (hcommits : rows.Pairwise fun r r' => r.commit < r'.commit)
    (hlatest : ∀ r ∈ rows, r.commit ≤ latest) (hfits : ∀ r ∈ rows, r.row.Fits)
    (hlanded : roots.1 ≤ U64_MAX ∧ roots.2 ≤ U64_MAX ∧ next ≤ U64_MAX ∧ latest ≤ U64_MAX) :
    Sound { s.land roots next latest with rows } := by
  have hsub : (rows.map RetainedRow.snap ++ [s.snapAt roots]).Sublist
      (s.snaps ++ [s.snapAt roots, s.snapAt roots]) := by
    have happend := hrows.append (List.Sublist.refl [s.snapAt roots])
    rw [append_assoc] at happend
    exact happend
  exact {
    below := h.below
    landed_le := Nat.le_refl _
    written := nofun
    kept := fun _ _ => rfl
    good := by
      intro a ha
      rcases mem_append.mp (hsub.subset ha) with hold | hnew
      · exact h.good a hold
      · have ha : a = s.snapAt roots := by
          rcases mem_cons.mp hnew with hnew | hnew
          · exact hnew
          · exact mem_singleton.mp hnew
        rw [ha]
        exact hp.good h
    ordered := (hp.pairwise h).sublist hsub
    commits := hcommits
    latest := hlatest
    fits := hfits
    landed_fits := hlanded }

/-- What a commit appends comes after every row there is. -/
theorem Sound.append {row : CommitHistoryMeta} (owed : Bool) (hfits : row.Fits) :
    ((s.rows ++ s.appended row owed).map RetainedRow.snap).Sublist (s.snaps ++ [s.snapAt row.roots])
      ∧ (s.rows ++ s.appended row owed).Pairwise (fun r r' => r.commit < r'.commit)
      ∧ (∀ r ∈ s.rows ++ s.appended row owed, r.commit ≤ s.latestCommitId + 1)
      ∧ ∀ r ∈ s.rows ++ s.appended row owed, r.row.Fits := by
  have hnew : ∀ r ∈ s.rows, r.commit < (s.newRow row).commit :=
    fun r hr => Nat.lt_succ_of_le (h.latest r hr)
  by_cases howed : (owed && s.rows.all fun r => r.commit != s.latestCommitId) = true
  · have happended : s.appended row owed
        = [s.owedRow row.freeListRootPageId row.unixSeconds, s.newRow row] := by
      unfold appended
      rw [if_pos howed]
      rfl
    have hall : ∀ r ∈ s.rows, r.commit < s.latestCommitId := by
      intro r hr
      have hne := all_eq_true.mp (Bool.and_eq_true_iff.mp howed).2 r hr
      exact Nat.lt_of_le_of_ne (h.latest r hr) (by simpa using hne)
    rw [happended]
    refine ⟨?_, ?_, fun r hr => ?_, fun r hr => ?_⟩
    · rw [map_append]
      show List.Sublist (_ ++ [s.landed, s.snapAt row.roots]) _
      unfold snaps
      rw [append_assoc]
      exact List.Sublist.refl _
    · refine pairwise_append.mpr ⟨h.commits, ?_, fun r hr r' hr' => ?_⟩
      · refine pairwise_cons.mpr ⟨fun r' hr' => ?_, pairwise_singleton _ _⟩
        rw [mem_singleton.mp hr']
        exact Nat.lt_succ_self s.latestCommitId
      · rcases mem_cons.mp hr' with rfl | hr'
        · exact hall r hr
        · rw [mem_singleton.mp hr']
          exact hnew r hr
    · rcases mem_append.mp hr with hr | hr
      · exact Nat.le_succ_of_le (h.latest r hr)
      · rcases mem_cons.mp hr with rfl | hr
        · exact Nat.le_succ s.latestCommitId
        · rw [mem_singleton.mp hr]
          exact Nat.le_refl _
    · rcases mem_append.mp hr with hr | hr
      · exact h.fits r hr
      · rcases mem_cons.mp hr with rfl | hr
        · exact ⟨h.landed_fits.1, h.landed_fits.2.1, hfits.2.2.1, h.landed_fits.2.2.1,
            hfits.2.2.2.2⟩
        · rw [mem_singleton.mp hr]
          exact hfits
  · have happended : s.appended row owed = [s.newRow row] := by
      unfold appended
      rw [if_neg howed]
      rfl
    rw [happended]
    refine ⟨?_, ?_, fun r hr => ?_, fun r hr => ?_⟩
    · rw [map_append]
      exact (sublist_append_left _ _).append (List.Sublist.refl _)
    · refine pairwise_append.mpr ⟨h.commits, pairwise_singleton _ _, fun r hr r' hr' => ?_⟩
      rw [mem_singleton.mp hr']
      exact hnew r hr
    · rcases mem_concat.mp hr with hr | rfl
      · exact Nat.le_succ_of_le (h.latest r hr)
      · exact Nat.le_refl _
    · rcases mem_concat.mp hr with hr | rfl
      · exact h.fits r hr
      · exact hfits

/-! ### Runs -/

theorem Sound.step {e : SealEvent} (hlegal : s.Legal e) : (s.step e).Sound := by
  cases e with
  | flush batch torn => exact h.flush hlegal
  | header roots next takesCommitId =>
    obtain ⟨hp, hdata, hcatalog, hnext, hcommit⟩ := hlegal
    have hlatest : s.latestCommitId
        ≤ if takesCommitId then s.latestCommitId + 1 else s.latestCommitId := by
      cases takesCommitId with
      | true => exact Nat.le_succ _
      | false => exact Nat.le_refl _
    have hmax : (if takesCommitId then s.latestCommitId + 1 else s.latestCommitId) ≤ U64_MAX := by
      cases takesCommitId with
      | true => exact hcommit rfl
      | false => exact h.landed_fits.2.2.2
    refine hp.sound h ?_ h.commits (fun r hr => Nat.le_trans (h.latest r hr) hlatest) h.fits
      ⟨hdata, hcatalog, hnext, hmax⟩
    unfold snaps
    rw [append_assoc]
    exact sublist_append_left _ _
  | commit row owed prunedThrough =>
    obtain ⟨hp, hfits, hcommit⟩ := hlegal
    obtain ⟨hsub, hcommits, hlatest, hrows⟩ := h.append owed hfits
    have hkept : ((s.rows ++ s.appended row owed).filter fun r =>
        decide (prunedThrough < r.commit)).Sublist (s.rows ++ s.appended row owed) :=
      filter_sublist
    exact hp.sound h ((hkept.map _).trans hsub) (hcommits.sublist hkept)
      (fun r hr => hlatest r (hkept.subset hr)) (fun r hr => hrows r (hkept.subset hr))
      ⟨hfits.1, hfits.2.1, hfits.2.2.2.1, hcommit⟩
  | abort => exact { h with written := nofun }
  | reopen counter =>
    exact { h with
      written := nofun
      below := fun id read hread =>
        Nat.lt_of_lt_of_le (h.below id read hread) (Nat.le_max_left _ _)
      landed_le := Nat.le_trans h.landed_le (Nat.le_max_left _ _) }

omit h

theorem sound_create (handle : SealHandle) : (create handle).Sound where
  below := nofun
  landed_le := Nat.le_refl _
  written := nofun
  kept := fun _ _ => rfl
  good := by
    intro a ha
    rw [mem_singleton.mp ha]
    have hnone : ∀ id, id ∉ SealSnap.pages (create handle).landed := by
      rintro id (hid | hid)
      · exact hid.1 rfl
      · exact hid.1 rfl
    exact {
      below := nofun
      linked := ⟨fun x hx => absurd hx (hnone x), fun x _ hx => absurd hx (hnone x),
        fun x _ _ hx => absurd hx (hnone x)⟩
      dataNode := fun h => absurd rfl h
      catalogNode := fun h => absurd rfl h }
  ordered := pairwise_singleton _ _
  commits := List.Pairwise.nil
  latest := nofun
  fits := nofun
  landed_fits := ⟨Nat.zero_le _, Nat.zero_le _, show FIRST_DATA_PAGE ≤ U64_MAX by decide, Nat.zero_le _⟩

/-- **The invariant holds after every run of commits.** -/
theorem run_sound (handle : SealHandle) (events : List SealEvent)
    (h : Lib.Meets step Legal (create handle) events) : (Lib.run step (create handle) events).Sound :=
  Lib.run_invariant_of_meets (I := Sound) (fun _ _ hs he => hs.step he) events _
    (sound_create handle) h

end SealStore

end Pagedb
