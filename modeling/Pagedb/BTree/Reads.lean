/-
  Pagedb.BTree.Reads — what a read of any pages does (`btree/tree/{navigate,scan}.rs`).

  The pages of a session may be linked in any way: in cycles, with shared children,
  with leaves at several depths.  A read changes nothing but the awaits still ahead,
  fails only with the errors of a damaged page graph, and every loop of it has a
  guard that spans it: it ends, and it ends as the model's bounded loop does.

  Main results:
    * `descendFrom_ends`, `readChainFrom_ends`, `LeafScan.loop_ends` — one for each
      loop, from what its turn does;
    * `ScanCall.terminates` — every scan, and no leaf met twice.
-/
import Pagedb.BTree.Scan
import Pagedb.BTree.View
import Pagedb.Lib.Loop

namespace Pagedb

open Lib List

/-! ## §1. Reads -/

/-- What a read leaves of a session: some of its awaits are behind it. -/
def Session.Reads (s t : Session) : Prop :=
  ∃ faults, faults ⊆ s.pager.faults ∧ t = { s with pager := s.pager.withFaults faults }

/-- How a read may fail: with an error that only a damaged page graph raises, or as
    an await below it was made to end. -/
def Session.ReadError (s : Session) (e : TreeError) : Prop :=
  e.provesUnreadablePages = true ∨ e = .io ∧ .fail ∈ s.pager.faults
    ∨ e = .cancelled ∧ .cancel ∈ s.pager.faults

/-- From `s` on, `x` only reads, and returns only values of `Q`. -/
abbrev Reading {α : Type} (s : Session) (Q : α → Prop) (x : TreeM α) : Prop :=
  Safe s.Reads s.ReadError Q x

/-- From `s` on, the loop ends, and `x` ends as it does. -/
abbrev LoopEnds {α β : Type} (s : Session) (turn : α → TreeM (α ⊕ β)) (a : α) (Q : β → Prop)
    (x : TreeM β) : Prop :=
  EndsAsLoop s.Reads s.ReadError Q turn a x

variable {s : Session} {α : Type}

theorem Session.Reads.refl (s : Session) : s.Reads s := ⟨s.pager.faults, List.Subset.refl _, rfl⟩

/-- A program that reads from every session leaves all but the awaits as they are. -/
theorem Reading.quiet {x : TreeM α} {Q : Session → α → Prop} (h : ∀ t, Reading t (Q t) x) :
    Keeps s.Quiet x := by
  intro t ht
  obtain ⟨faults, -, hend⟩ := (h t).keeps t (Session.Reads.refl t)
  exact ht.trans ⟨faults, hend⟩

theorem Reading.damaged {Q : α → Prop} {e : TreeError} (h : e.provesUnreadablePages = true) :
    Reading s Q (throw e) := Safe.throw (Or.inl h)

theorem await_reading : Reading s (fun _ => True) await := by
  have hset : ∀ t, s.Reads t → Reading s (fun _ => True) (set t) := fun t ht =>
    ⟨fun _ _ => ht, fun _ _ _ _ h => (by cases h), fun _ _ _ _ _ => trivial⟩
  unfold await
  refine Safe.get fun t ht => ?_
  obtain ⟨faults, hsub, rfl⟩ := ht
  match faults with
  | [] => exact Safe.pure trivial
  | .none :: rest => exact hset _ ⟨rest, fun f hf => hsub (mem_cons_of_mem _ hf), rfl⟩
  | .fail :: rest =>
    exact (hset _ ⟨rest, fun f hf => hsub (mem_cons_of_mem _ hf), rfl⟩).bind fun _ _ =>
      Safe.throw (Or.inr (Or.inl ⟨rfl, hsub mem_cons_self⟩))
  | .cancel :: rest =>
    exact (hset _ ⟨rest, fun f hf => hsub (mem_cons_of_mem _ hf), rfl⟩).bind fun _ _ =>
      Safe.throw (Or.inr (Or.inr ⟨rfl, hsub mem_cons_self⟩))

theorem await_quiet : Keeps s.Quiet await := Reading.quiet fun _ => await_reading

theorem readPage_reading (id : PageId) :
    Reading s (fun page => s.pager.page id = some page) (readPage id) := by
  unfold readPage
  refine await_reading.bind fun _ _ => Safe.get fun t ht => ?_
  obtain ⟨faults, -, rfl⟩ := ht
  rw [Pager.page_withFaults]
  cases hpage : s.pager.page id with
  | none => exact Reading.damaged rfl
  | some page => exact Safe.pure rfl

theorem readNodeGuard_reading (id : PageId) :
    Reading s (fun node => s.pager.page id = some (node.elim .leaf .internal)) (readNodeGuard id) := by
  unfold readNodeGuard
  refine (readPage_reading id).bind fun page hpage => ?_
  cases page with
  | leaf l => exact Safe.pure hpage
  | internal node => exact Safe.pure hpage
  | _ => exact Reading.damaged rfl

theorem readInternal_reading (id : PageId) :
    Reading s (fun node => s.pager.page id = some (.internal node)) (readInternal id) := by
  unfold readInternal
  refine (readPage_reading id).bind fun page hpage => ?_
  cases page with
  | internal node => exact Safe.pure hpage
  | _ => exact Reading.damaged rfl

theorem readLeaf_reading (id : PageId) : Reading s (fun _ => True) (readLeaf id) := by
  unfold readLeaf decodeLeafFromPager
  refine Safe.get fun t _ => ?_
  cases t.freshLeaves.lookup id with
  | some leaf => exact Safe.pure trivial
  | none =>
    cases t.dirtyLeaves.lookup id with
    | some leaf => exact Safe.pure trivial
    | none =>
      refine (readPage_reading id).bind fun page _ => ?_
      cases page with
      | leaf l => exact Safe.pure trivial
      | _ => exact Reading.damaged rfl

theorem readRootPage_reading (id : PageId) :
    Reading s (fun _ => (s.pager.page id).isSome) (readRootPage id) := by
  unfold readRootPage
  refine (readPage_reading id).bind fun page hpage => ?_
  rw [hpage]
  cases page with
  | overflowRoot refcount next data => exact Safe.pure rfl
  | _ => exact Reading.damaged rfl

theorem readChainPage_reading (id : PageId) :
    Reading s (fun _ => (s.pager.page id).isSome) (readChainPage id) := by
  unfold readChainPage
  refine (readPage_reading id).bind fun page hpage => ?_
  rw [hpage]
  cases page with
  | overflow next data => exact Safe.pure rfl
  | _ => exact Reading.damaged rfl

/-- A guard of page ids that were read can grow `pageCount` times. -/
theorem Session.page_guard (s : Session) : ∀ ids : List PageId, ids.Nodup →
    (∀ id ∈ ids, (s.pager.page id).isSome) → ids.length ≤ s.pager.pageCount :=
  fun _ => Pager.length_le_pageCount

/-- A read that is told how many pages the pager holds. -/
theorem reading_pageCount {Q : α → Prop} {f : Nat → TreeM α}
    (h : Reading s Q (f (s.pager.pageCount + 1))) :
    Reading s Q (do f ((← get).pager.pageCount + 1)) := by
  refine Safe.get fun t ht => ?_
  obtain ⟨faults, -, rfl⟩ := ht
  exact h

/-! ## §2. Descents -/

/-- One turn of a descent loop: the path so far, and the next page. -/
def descendTurn (pick : PageId → Internal → TreeM PageId) (a : List PageId × PageId) :
    TreeM ((List PageId × PageId) ⊕ (List PageId × Leaf)) :=
  let (path, id) := a
  if id = 0 ∨ id ∈ path then throw .pageChainCycle
  else do
    let s ← get
    match s.freshLeaves.lookup id with
    | some leaf => pure (.inr (path ++ [id], leaf))
    | none =>
      match ← readNodeGuard id with
      | .inl page => pure (.inr (path ++ [id], (s.dirtyLeaves.lookup id).getD page))
      | .inr node => do
        let child ← pick id node
        pure (.inl (path ++ [id], child))

/-- The session holds something under the id that a scan can take for a leaf. -/
def Session.HasLeaf (s : Session) (id : PageId) : Prop :=
  (s.freshLeaves.lookup id).isSome ∨ (s.pager.page id).isSome

/-- A path to a leaf. -/
def Session.LeadsTo (s : Session) (path : List PageId) : Prop :=
  ∃ above id, path = above ++ [id] ∧ s.HasLeaf id

section Descents

variable {pick : PageId → Internal → TreeM PageId} {child : Internal → PageId}
  (hpick : ∀ id node, s.pager.page id = some (.internal node) → pick id node = pure (child node))

include hpick

/-- What a turn of a descent does: a new page of the pager is added to the path, or
    the leaf at its end is returned. -/
theorem descendTurn_reading (start : List PageId) (a : List PageId × PageId)
    (ha : ∃ new, a.1 = start ++ new) :
    Reading s (Sum.elim (fun a' => (∃ new, a'.1 = start ++ new)
        ∧ ∃ k, (s.pager.page k).isSome ∧ k ∉ a.1 ∧ a'.1.Perm (k :: a.1))
      (fun r => ∃ new id, r.1 = start ++ (new ++ [id]) ∧ s.HasLeaf id)) (descendTurn pick a) := by
  obtain ⟨path, id⟩ := a
  obtain ⟨new, hnew⟩ := ha
  have hmore : path ++ [id] = start ++ (new ++ [id]) := by
    rw [← append_assoc, ← hnew]
  unfold descendTurn
  refine Safe.ite (fun _ => Reading.damaged rfl) fun hid => Safe.get fun t ht => ?_
  obtain ⟨faults, -, rfl⟩ := ht
  show Reading s _ (match s.freshLeaves.lookup id with | some leaf => _ | none => _)
  cases hfresh : s.freshLeaves.lookup id with
  | some leaf => exact Safe.pure ⟨new, id, hmore, Or.inl (by rw [hfresh]; rfl)⟩
  | none =>
    refine (readNodeGuard_reading id).bind fun node hpage => ?_
    have hsome : (s.pager.page id).isSome := by
      rw [hpage]
      rfl
    cases node with
    | inl page => exact Safe.pure ⟨new, id, hmore, Or.inr hsome⟩
    | inr node =>
      show Reading s _ (pick id node >>= _)
      rw [hpick id node hpage]
      exact Safe.pure ⟨⟨_, hmore⟩, id, hsome, fun h => hid (Or.inr h), perm_append_singleton _ _⟩

theorem descendFrom_unrolls (n : Nat) (a : List PageId × PageId) (t : Session) (ht : s.Reads t) :
    Unrolls (descendTurn pick) (fun n a => descendFrom child n a.1 a.2) n a t := by
  obtain ⟨path, id⟩ := a
  obtain ⟨faults, hsub, rfl⟩ := ht
  unfold Unrolls
  by_cases hid : id = 0 ∨ id ∈ path
  · simp only [descendFrom, descendTurn, if_pos hid]
    rfl
  · simp only [descendFrom, descendTurn, if_neg hid]
    rw [bind_assoc, get_bind, get_bind]
    cases ({ s with pager := s.pager.withFaults faults } : Session).freshLeaves.lookup id with
    | some leaf => rfl
    | none =>
      simp only [bind_assoc]
      cases hread : readNodeGuard id { s with pager := s.pager.withFaults faults } with
      | error e u => rw [bind_of_error hread, bind_of_error hread]
      | ok node u =>
        rw [bind_of_ok hread, bind_of_ok hread]
        cases node with
        | inl page => rfl
        | inr node =>
          have hpage := (readNodeGuard_reading id).value _ _ _ ⟨faults, hsub, rfl⟩ hread
          show _ = ((pick id node >>= _) >>= _) u
          rw [hpick id node hpage]
          rfl

variable (pick) in
/-- **A descent ends**, from any page and with any path in its guard: it meets no page
    twice, and returns only at a leaf. -/
theorem descendFrom_ends (path : List PageId) (id : PageId) :
    LoopEnds s (descendTurn pick) (path, id)
      (fun r => ∃ new id, r.1 = path ++ (new ++ [id]) ∧ s.HasLeaf id)
      (descendFrom child (s.pager.pageCount + 1) path id) :=
  Loop.of_guard (f := fun n a => descendFrom child n a.1 a.2) s.page_guard Prod.fst
    (descendTurn_reading hpick path) (fun n a t _ ht => descendFrom_unrolls hpick n a t ht)
    ⟨[], (append_nil path).symm⟩

omit hpick in
theorem descend_reading (child : Internal → PageId) :
    Reading s (fun r => s.LeadsTo r.1) (descend child) := by
  unfold descend
  refine Safe.get fun t ht => ?_
  obtain ⟨faults, -, rfl⟩ := ht
  refine (descendFrom_ends (fun _ node => pure (child node)) (fun _ _ _ => rfl) []
    s.rootPageId).safe.weaken fun r hr => ?_
  obtain ⟨new, id, hpath, hid⟩ := hr
  exact ⟨new, id, hpath, hid⟩

end Descents

theorem pathToLeafForKey_reading (key : Bytes) : Reading s s.LeadsTo (pathToLeafForKey key) :=
  (descend_reading _).bind fun _ hr => Safe.pure hr

theorem pathToRightmostLeaf_reading : Reading s s.LeadsTo pathToRightmostLeaf :=
  (descend_reading _).bind fun _ hr => Safe.pure hr

theorem climb_reading (sibling : Internal → PageId → Option PageId) (ancestors : List PageId) :
    ∀ child, Reading s (fun _ => True) (climb sibling ancestors child) := by
  induction ancestors with
  | nil => exact fun _ => Safe.pure trivial
  | cons p up ih =>
    intro child
    unfold climb readAncestor
    rw [bind_assoc]
    refine (readNodeGuard_reading p).bind fun node _ => ?_
    cases node with
    | inl leaf => exact Reading.damaged rfl
    | inr node =>
      rw [pure_bind]
      cases sibling node child with
      | some next => exact Safe.pure trivial
      | none => exact ih p

/-- The leaf next to one that a descent found. -/
theorem neighbourLeaf_reading (sibling : Internal → PageId → Option PageId)
    (edge : Internal → PageId) {path : List PageId} (hpath : s.LeadsTo path) :
    Reading s (fun r => ∀ next, r = some next → s.LeadsTo next) (neighbourLeaf sibling edge path) := by
  obtain ⟨above, leaf, rfl, -⟩ := hpath
  unfold neighbourLeaf
  rw [getLast?_concat]
  refine (climb_reading sibling _ leaf).bind fun found _ => ?_
  cases found with
  | none => exact Safe.pure nofun
  | some found =>
    obtain ⟨common, next⟩ := found
    refine reading_pageCount (f := fun n => descendFrom edge n _ next >>= _) ?_
    refine (descendFrom_ends (fun _ node => pure (edge node)) (fun _ _ _ => rfl) _
      next).safe.bind fun r hr => Safe.pure fun next hnext => ?_
    obtain ⟨new, id, hfull, hid⟩ := hr
    cases hnext
    rw [hfull, drop_left, ← append_assoc]
    exact ⟨common ++ new, id, rfl, hid⟩

/-! ## §3. Chains -/

/-- One turn of the loop of `read_chain`: the pages seen, the next one, and the bytes
    so far. -/
def readChainTurn (totalLen : Nat) (a : List PageId × PageId × Bytes) :
    TreeM ((List PageId × PageId × Bytes) ⊕ Bytes) :=
  let (seen, next, out) := a
  if next = 0 then pure (.inr out)
  else if seen.contains next then throw .overflowChainCycle
  else do
    let (after, data) ← readChainPage next
    if out.length + data.length > totalLen then throw .overflowBodyMalformed
    else pure (.inl (next :: seen, after, out ++ data))

theorem readChainTurn_reading (totalLen : Nat) (a : List PageId × PageId × Bytes) :
    Reading s (Sum.elim (fun a' => True ∧ ∃ k, (s.pager.page k).isSome ∧ k ∉ a.1
      ∧ a'.1.Perm (k :: a.1)) (fun _ => True)) (readChainTurn totalLen a) := by
  obtain ⟨seen, next, out⟩ := a
  unfold readChainTurn
  refine Safe.ite (fun _ => Safe.pure trivial) fun _ => Safe.ite (fun _ => Reading.damaged rfl)
    fun hseen => (readChainPage_reading next).bind fun r hpage =>
      Safe.ite (fun _ => Reading.damaged rfl) fun _ => Safe.pure ?_
  refine ⟨trivial, next, hpage, ?_, List.Perm.refl _⟩
  rwa [contains_iff_mem] at hseen

theorem readChainFrom_unrolls (totalLen n : Nat) (a : List PageId × PageId × Bytes) (t : Session) :
    Unrolls (readChainTurn totalLen) (fun n a => readChainFrom totalLen n a.1 a.2.1 a.2.2) n a t := by
  obtain ⟨seen, next, out⟩ := a
  unfold Unrolls
  by_cases hnext : next = 0
  · simp only [readChainFrom, readChainTurn, if_pos hnext]
    rfl
  · by_cases hseen : seen.contains next = true
    · simp only [readChainFrom, readChainTurn, if_neg hnext, if_pos hseen]
      rfl
    · simp only [readChainFrom, readChainTurn, if_neg hnext, if_neg hseen, bind_assoc]
      refine congrFun (congrArg _ (funext fun r => ?_)) t
      by_cases hlong : out.length + r.2.length > totalLen
      · simp only [if_pos hlong]
        rfl
      · simp only [if_neg hlong]
        rfl

theorem readChainFrom_ends (totalLen : Nat) (seen : List PageId) (next : PageId) (out : Bytes) :
    LoopEnds s (readChainTurn totalLen) (seen, next, out) (fun _ => True)
      (readChainFrom totalLen (s.pager.pageCount + 1) seen next out) :=
  Loop.of_guard (J := fun _ => True) (f := fun n a => readChainFrom totalLen n a.1 a.2.1 a.2.2)
    s.page_guard Prod.fst (fun a _ => readChainTurn_reading totalLen a)
    (fun n a t _ _ => readChainFrom_unrolls totalLen n a t) trivial

theorem pushRecord_reading (out : Found) (r : Bytes × LeafValue) :
    Reading s (fun _ => True) (pushRecord out r) := by
  refine Safe.bind (P := fun _ => True) ?_ fun _ _ => Safe.pure trivial
  unfold resolveLeafValue
  cases r.2 with
  | inline v => exact Safe.pure trivial
  | overflow totalLen root =>
    refine (readRootPage_reading root).bind fun r _ => Safe.ite (fun _ => Reading.damaged rfl)
      fun _ => reading_pageCount (f := fun n => readChainFrom totalLen n _ _ _ >>= _) ?_
    exact (readChainFrom_ends totalLen [root] r.2.1 r.2.2).safe.bind fun _ _ =>
      Safe.ite (fun _ => Safe.pure trivial) fun _ => Reading.damaged rfl

/-! ## §4. Scans -/

/-- Where a scan stands at the head of its loop. -/
structure ScanAt (σ : Type) where
  seen : List PageId
  path : List PageId
  out : σ

/-- The leaf a turn reads. -/
def ScanAt.leaf {σ : Type} (a : ScanAt σ) : PageId := a.path.getLast?.getD 0

/-- One turn of the loop of a scan. -/
def LeafScan.turn {σ : Type} (sc : LeafScan σ) (a : ScanAt σ) : TreeM (ScanAt σ ⊕ σ) := do
  match a.path.getLast? with
  | none => throw .panic
  | some id =>
    if id ∈ a.seen then throw .pageChainCycle
    else do
      let leaf ← readLeaf id
      let (out, done) ← sc.visitAll (sc.order leaf.records) a.out
      if done || sc.full out then pure (.inr out)
      else do
        let next ← sc.next a.path
        if sc.agrees leaf next then
          match next with
          | none => pure (.inr out)
          | some next => pure (.inl { seen := id :: a.seen, path := next, out })
        else throw .leafSiblingMismatch

/-- Leaves of one guard are pages of the pager or fresh. -/
theorem Session.leaf_guard (s : Session) (ids : List PageId) (hnodup : ids.Nodup)
    (hleaf : ∀ id ∈ ids, s.HasLeaf id) :
    ids.length ≤ s.pager.pageCount + s.freshLeaves.entries.length := by
  have hfresh : (ids.filter fun id => (s.freshLeaves.lookup id).isSome).length
      ≤ s.freshLeaves.entries.length := by
    have hsub : ids.filter (fun id => (s.freshLeaves.lookup id).isSome) ⊆ s.freshLeaves.keys :=
      fun id hid => AList.lookup_isSome.mp (mem_filter.mp hid).2
    refine (subperm_of_subset (hnodup.filter _) hsub).length_le.trans_eq ?_
    unfold AList.keys List.keys
    rw [length_map]
  have hpages : (ids.filter fun id => !(s.freshLeaves.lookup id).isSome).length
      ≤ s.pager.pageCount := by
    refine Pager.length_le_pageCount (hnodup.filter _) fun id hid => ?_
    obtain ⟨hmem, hnot⟩ := mem_filter.mp hid
    exact (hleaf id hmem).resolve_left (by simpa using hnot)
  have hsplit := length_eq_length_filter_add (l := ids) fun id => (s.freshLeaves.lookup id).isSome
  omega

section Scans

variable {σ : Type} {sc : LeafScan σ}

/-- A scan whose visits and moves only read. -/
structure LeafScan.OnlyReads (sc : LeafScan σ) (s : Session) : Prop where
  visit : ∀ out r, Reading s (fun _ => True) (sc.visit out r)
  next : ∀ path, s.LeadsTo path →
    Reading s (fun r => ∀ next, r = some next → s.LeadsTo next) (sc.next path)

theorem LeafScan.OnlyReads.visitAll (h : sc.OnlyReads s) (records : Records) :
    ∀ out, Reading s (fun _ => True) (sc.visitAll records out) := by
  induction records with
  | nil => exact fun _ => Safe.pure trivial
  | cons r records ih =>
    intro out
    unfold LeafScan.visitAll
    exact (h.visit out r).bind fun _ _ => Safe.ite (fun _ => Safe.pure trivial) fun _ => ih _

theorem ScanAt.leaf_of_leads {a : ScanAt σ} (ha : s.LeadsTo a.path) :
    a.path.getLast? = some a.leaf ∧ s.HasLeaf a.leaf := by
  obtain ⟨above, id, hpath, hid⟩ := ha
  have hlast : a.path.getLast? = some id := by rw [hpath, getLast?_concat]
  unfold ScanAt.leaf
  rw [hlast]
  exact ⟨rfl, hid⟩

/-- What a turn of a scan does: it reads a leaf that its guard does not hold, and goes
    on from another one with that leaf in the guard. -/
theorem LeafScan.turn_reading (h : sc.OnlyReads s) (a : ScanAt σ) (ha : s.LeadsTo a.path) :
    Reading s (fun x => a.leaf ∉ a.seen ∧ ∀ a', x = .inl a' →
      s.LeadsTo a'.path ∧ a'.seen = a.leaf :: a.seen) (sc.turn a) := by
  unfold LeafScan.turn
  rw [(ScanAt.leaf_of_leads ha).1]
  refine Safe.ite (fun _ => Reading.damaged rfl) fun hid => (readLeaf_reading _).bind fun leaf _ =>
    (h.visitAll _ a.out).bind fun out _ => Safe.ite
      (fun _ => Safe.pure ⟨hid, fun a' h => by cases h⟩) fun _ =>
    (h.next a.path ha).bind fun next hnext => Safe.ite (fun _ => ?_) fun _ => Reading.damaged rfl
  cases next with
  | none => exact Safe.pure ⟨hid, fun a' h => by cases h⟩
  | some next =>
    refine Safe.pure ⟨hid, fun a' h => ?_⟩
    cases h
    exact ⟨hnext next rfl, rfl⟩

theorem LeafScan.loop_unrolls (sc : LeafScan σ) (n : Nat) (a : ScanAt σ) (t : Session) :
    Unrolls sc.turn (fun n a => sc.loop n a.seen a.path a.out) n a t := by
  unfold Unrolls
  refine congrFun ?_ t
  simp only [LeafScan.loop, LeafScan.turn]
  cases a.path.getLast? with
  | none => rfl
  | some id =>
    by_cases hid : id ∈ a.seen
    · simp only [if_pos hid]
      rfl
    · simp only [if_neg hid, bind_assoc]
      refine congrArg _ (funext fun leaf => congrArg _ (funext fun out => ?_))
      by_cases hdone : (out.2 || sc.full out.1) = true
      · simp only [if_pos hdone]
        rfl
      · simp only [if_neg hdone, bind_assoc]
        refine congrArg _ (funext fun next => ?_)
        by_cases hagrees : sc.agrees leaf next = true
        · simp only [if_pos hagrees]
          cases next <;> rfl
        · simp only [if_neg hagrees]
          rfl

/-- **A scan ends**, though its steps may alternate between leaves: its guard spans
    them. -/
theorem LeafScan.loop_ends (h : sc.OnlyReads s) {path : List PageId} (hpath : s.LeadsTo path)
    (out : σ) : LoopEnds s sc.turn ⟨[], path, out⟩ (fun _ => True) (sc.walk path out) := by
  refine EndsAsLoop.congr (x := sc.loop (s.pager.pageCount + s.freshLeaves.entries.length + 1)
    [] path out) ?_ ?_
  · refine Loop.of_guard (J := fun a : ScanAt σ => s.LeadsTo a.path) (a := ⟨[], path, out⟩)
      (f := fun n a => sc.loop n a.seen a.path a.out) s.leaf_guard ScanAt.seen (fun a ha => ?_)
      (fun n a t _ _ => sc.loop_unrolls n a t) hpath
    refine (LeafScan.turn_reading h a ha).weaken fun x hx => ?_
    cases x with
    | inr out => trivial
    | inl a' =>
      obtain ⟨hlead, hseen⟩ := hx.2 a' rfl
      exact ⟨hlead, a.leaf, (ScanAt.leaf_of_leads ha).2, hx.1, List.Perm.of_eq hseen⟩
  · rintro t ⟨faults, -, rfl⟩
    rfl

end Scans

/-- The scans of the tree. -/
inductive ScanCall where
  | range (start stop : Bytes)
  | all
  | batchFrom (start : Bytes) (limit : Nat)
  | revBatchBefore (before : Option Bytes) (limit : Nat)
  | leading (lead : Bytes)
  | prefixBatchBounded (lead start : Bytes) (maxRecords maxBytes : Nat)
  | keysBatchInRange (start stop : Bytes) (limit : Nat)

namespace ScanCall

/-- What a scan collects. -/
abbrev Out : ScanCall → Type
  | prefixBatchBounded _ _ _ _ => ScanBatch × Nat
  | keysBatchInRange _ _ _ => List Bytes
  | _ => Found

/-- The descent to its first leaf. -/
def start : ScanCall → TreeM (List PageId)
  | range start _ => pathToLeafForKey start
  | all => pathToLeafForKey []
  | batchFrom start _ => pathToLeafForKey start
  | revBatchBefore before _ => pathBefore before
  | leading lead => pathToLeafForKey lead
  | prefixBatchBounded lead start _ _ => pathToLeafForKey (max start lead)
  | keysBatchInRange start _ _ => pathToLeafForKey start

/-- Its walk. -/
def scan : (c : ScanCall) → LeafScan c.Out
  | range start stop => LeafScan.forward (visitRange start stop)
  | all => LeafScan.forward visitAny
  | batchFrom start limit => { LeafScan.forward (visitBatch start limit) with
      full := fun out => decide (out.length = limit) }
  | revBatchBefore before limit => LeafScan.backward (visitBefore before limit)
  | leading lead => LeafScan.forward (visitPrefix lead)
  | prefixBatchBounded lead start maxRecords maxBytes =>
    LeafScan.forward (visitBounded lead (max start lead) maxRecords maxBytes)
  | keysBatchInRange start stop limit => { LeafScan.forward (visitKeys start stop limit) with
      agrees := fun leaf next =>
        decide (leaf.rightSibling = 0 ∨ next.bind List.getLast? = some leaf.rightSibling) }

/-- What it returns of an empty tree, or when nothing may be returned. -/
def empty : (c : ScanCall) → c.Out
  | prefixBatchBounded _ _ _ _ => ({ entries := [], limit := none }, 0)
  | keysBatchInRange _ _ _ => ([] : List Bytes)
  | range _ _ => ([] : Found)
  | all => ([] : Found)
  | batchFrom _ _ => ([] : Found)
  | revBatchBefore _ _ => ([] : Found)
  | leading _ => ([] : Found)

/-- The bound of a batch. -/
def limit? : ScanCall → Option Nat
  | batchFrom _ limit => some limit
  | revBatchBefore _ limit => some limit
  | keysBatchInRange _ _ limit => some limit
  | _ => none

/-- A scan: descent, then walk. -/
def run (c : ScanCall) : TreeM c.Out := do
  if (← get).rootPageId = 0 ∨ c.limit? = some 0 then pure c.empty
  else do
    let path ← c.start
    c.scan.walk path c.empty

theorem collectRange_eq (start stop : Bytes) :
    collectRange start stop = (range start stop).run := by
  simp only [collectRange, run, limit?, reduceCtorEq, or_false]
  rfl

theorem collectAll_eq : collectAll = all.run := by
  simp only [collectAll, run, limit?, reduceCtorEq, or_false]
  rfl

theorem scanPrefix_eq (lead : Bytes) : scanPrefix lead = (leading lead).run := by
  simp only [scanPrefix, run, limit?, reduceCtorEq, or_false]
  rfl

/-- The byte count of the walk is not returned. -/
theorem collectPrefixBatchBounded_eq (lead start : Bytes) (maxRecords maxBytes : Nat) :
    collectPrefixBatchBounded lead start maxRecords maxBytes
      = (prefixBatchBounded lead start maxRecords maxBytes).run >>= fun out => pure out.1 := by
  unfold collectPrefixBatchBounded run
  rw [bind_assoc]
  refine congrArg _ (funext fun s => ?_)
  by_cases hroot : s.rootPageId = 0
  · rw [if_pos hroot, if_pos (Or.inl hroot)]
    rfl
  · rw [if_neg hroot, if_neg (fun h => h.elim hroot nofun), bind_assoc]
    rfl

theorem collectBatchFrom_eq (start : Bytes) (limit : Nat) :
    collectBatchFrom start limit = (batchFrom start limit).run := by
  simp only [collectBatchFrom, run, limit?, Option.some.injEq]
  rfl

theorem collectRevBatchBefore_eq (before : Option Bytes) (limit : Nat) :
    collectRevBatchBefore before limit = (revBatchBefore before limit).run := by
  simp only [collectRevBatchBefore, run, limit?, Option.some.injEq]
  rfl

theorem collectKeysBatchInRange_eq (start stop : Bytes) (limit : Nat) :
    collectKeysBatchInRange start stop limit = (keysBatchInRange start stop limit).run := by
  simp only [collectKeysBatchInRange, run, limit?, Option.some.injEq]
  rfl

theorem start_reading (c : ScanCall) : Reading s s.LeadsTo c.start := by
  cases c with
  | revBatchBefore before limit =>
    cases before with
    | some before => exact pathToLeafForKey_reading before
    | none => exact pathToRightmostLeaf_reading
  | _ => exact pathToLeafForKey_reading _

theorem scan_onlyReads (c : ScanCall) : c.scan.OnlyReads s := by
  have hnext := fun (path : List PageId) (hpath : s.LeadsTo path) =>
    neighbourLeaf_reading Internal.rightSiblingChild Internal.leftmostChild hpath
  have hpush : ∀ (out : Found) (r : Bytes × LeafValue) {β : Type} (f : Found → β),
      Reading s (fun _ => True) (do pure (f (← pushRecord out r))) :=
    fun out r _ _ => (pushRecord_reading out r).bind fun _ _ => Safe.pure trivial
  have hpure : ∀ {β : Type} (b : β), Reading s (fun _ => True) (pure b) := fun _ => Safe.pure trivial
  cases c with
  | all => exact ⟨fun out r => hpush _ _ _, hnext⟩
  | batchFrom start limit =>
    exact ⟨fun out r => Safe.ite (fun _ => hpure _) fun _ => Safe.ite (fun _ => hpure _)
      fun _ => hpush _ _ _, hnext⟩
  | revBatchBefore before limit =>
    exact ⟨fun out r => Safe.ite (fun _ => hpure _) fun _ => hpush _ _ _,
      fun path hpath => neighbourLeaf_reading _ _ hpath⟩
  | prefixBatchBounded lead start maxRecords maxBytes =>
    exact ⟨fun out r => Safe.ite (fun _ => hpure _) fun _ => Safe.ite (fun _ => hpure _) fun _ =>
      Safe.ite (fun _ => hpure _) fun _ => Safe.ite (fun _ => hpure _) fun _ => hpush _ _ _, hnext⟩
  | keysBatchInRange start stop limit =>
    exact ⟨fun out r => Safe.ite (fun _ => hpure _) fun _ => Safe.ite (fun _ => hpure _)
      fun _ => hpure _, hnext⟩
  | _ =>
    exact ⟨fun out r => Safe.ite (fun _ => hpure _) fun _ => Safe.ite (fun _ => hpush _ _ _)
      fun _ => hpure _, hnext⟩

theorem run_reading (c : ScanCall) : Reading s (fun _ => True) c.run :=
  Safe.get fun _ _ => Safe.ite (fun _ => Safe.pure trivial) fun _ =>
    c.start_reading.bind fun _ hpath => (LeafScan.loop_ends c.scan_onlyReads hpath c.empty).safe

/-- However the pages are linked: a scan fails only as a read may, its walk ends, and
    a walk that returned met no leaf twice. -/
structure Terminates (c : ScanCall) (s : Session) : Prop where
  fails : FailsOnly s.ReadError c.run s
  walk : ∀ path t, c.start s = .ok path t → ∃ turns,
    Loop c.scan.turn ⟨[], path, c.empty⟩ t turns (c.scan.walk path c.empty t)
      ∧ (isOk (c.scan.walk path c.empty t) = true → (turns.map ScanAt.leaf).Nodup)

theorem terminates (c : ScanCall) (s : Session) : c.Terminates s where
  fails := fun e t => c.run_reading.fails s e t (Session.Reads.refl s)
  walk := by
    intro path t hstart
    have hpath := c.start_reading.value s path t (Session.Reads.refl s) hstart
    have ht := (c.start_reading (s := s)).keeps.of_ok (Session.Reads.refl s) hstart
    obtain ⟨turns, hloop⟩ := (LeafScan.loop_ends c.scan_onlyReads hpath c.empty).loop t ht
    exact ⟨turns, hloop, fun hok => (Loop.nodup ScanAt.leaf ScanAt.seen
      (LeafScan.turn_reading c.scan_onlyReads) hloop hpath ht hok).1⟩

end ScanCall

end Pagedb
