/-
  Pagedb.Pager.FreeChain — what a free-list chain holds, and what the readers of
  `pager/freelist/read.rs` find of it.

  A run of the chain is a list of its pages in order, from one page to the page
  the last of them links to.  The whole chain is the run that ends at zero.

  Main results:
    * `FreeRun.nodup` — a chain that ends visits no page twice;
    * `readFreeChain_spec` — the entries and pages `read_chain` returns;
    * `readFreeChain_eq` — the walk always ends: on a cycle its two cursors meet.
-/
import Pagedb.Lib.Reach
import Pagedb.Pager.FreeList

namespace Pagedb

open Lib List

/-! ## §1. Runs of the chain -/

/-- The pages of the chain from `head` up to the page `stop`. -/
def FreeRun (page : PageId → Option Page) : PageId → List (PageId × FreePage) → PageId → Prop
  | head, [], stop => head = stop
  | head, (id, body) :: run, stop =>
    head = id ∧ id ≠ 0 ∧ page id = some (.free body) ∧ FreeRun page body.next run stop

/-- Where a page's link leads; zero leads nowhere. -/
def chainNext (page : PageId → Option Page) (id : PageId) : PageId :=
  if id = 0 then 0
  else
    match page id with
    | some (.free body) => body.next
    | _ => 0

theorem chainNext_eq {page : PageId → Option Page} {id : PageId} {body : FreePage} (hid : id ≠ 0)
    (h : page id = some (.free body)) : chainNext page id = body.next := by
  unfold chainNext
  rw [if_neg hid, h]

namespace FreeRun

variable {page : PageId → Option Page} {head stop : PageId}
  {run run' : List (PageId × FreePage)}

theorem mem_page (h : FreeRun page head run stop) {e : PageId × FreePage} (he : e ∈ run) :
    e.1 ≠ 0 ∧ page e.1 = some (.free e.2) := by
  induction run generalizing head with
  | nil => exact absurd he not_mem_nil
  | cons x run ih =>
    rcases mem_cons.mp he with rfl | he
    · exact ⟨h.2.1, h.2.2.1⟩
    · exact ih h.2.2.2 he

/-- Two ways to the end of the chain are one. -/
theorem unique (h : FreeRun page head run 0) (h' : FreeRun page head run' 0) : run = run' := by
  induction run generalizing head run' with
  | nil =>
    have h : head = 0 := h
    cases run' with
    | nil => rfl
    | cons e run' => exact absurd (h'.1 ▸ h) h'.2.1
  | cons e run ih =>
    cases run' with
    | nil =>
      have h' : head = 0 := h'
      exact absurd (h.1 ▸ h') h.2.1
    | cons e' run' =>
      have hid : e.1 = e'.1 := h.1.symm.trans h'.1
      have hbody : e.2 = e'.2 := by
        have hpage := h.2.2.1
        rw [hid, h'.2.2.1] at hpage
        exact (Page.free.inj (Option.some.inj hpage)).symm
      have hnext := h.2.2.2
      rw [hbody] at hnext
      rw [ih hnext h'.2.2.2, Prod.ext hid hbody]

theorem from_mem (h : FreeRun page head run stop) {e : PageId × FreePage} (he : e ∈ run) :
    ∃ front rest, run = front ++ e :: rest ∧ FreeRun page e.1 (e :: rest) stop := by
  induction run generalizing head with
  | nil => exact absurd he not_mem_nil
  | cons x run ih =>
    rcases mem_cons.mp he with rfl | he
    · exact ⟨[], run, rfl, rfl, h.2⟩
    · obtain ⟨front, rest, hsplit, hrest⟩ := ih h.2.2.2 he
      exact ⟨x :: front, rest, by rw [hsplit]; rfl, hrest⟩

/-- **A chain that ends visits no page twice**: the page would be followed by
    two runs of different length. -/
theorem nodup (h : FreeRun page head run 0) : (run.map Prod.fst).Nodup := by
  induction run generalizing head with
  | nil => exact nodup_nil
  | cons e run ih =>
    refine nodup_cons.mpr ⟨fun hmem => ?_, ih h.2.2.2⟩
    obtain ⟨x, hx, hid⟩ := mem_map.mp hmem
    obtain ⟨front, rest, hsplit, hrest⟩ := from_mem h.2.2.2 hx
    have hhead : head = x.1 := h.1.trans hid.symm
    have heq := unique (hhead ▸ h : FreeRun page x.1 (e :: run) 0) hrest
    have hlen := congrArg List.length heq
    rw [hsplit] at hlen
    simp only [length_cons, length_append] at hlen
    omega

theorem congr {page' : PageId → Option Page} (h : FreeRun page head run stop)
    (hsame : ∀ e ∈ run, page' e.1 = page e.1) : FreeRun page' head run stop := by
  induction run generalizing head with
  | nil => exact h
  | cons e run ih =>
    refine ⟨h.1, h.2.1, ?_, ih h.2.2.2 fun x hx => hsame x (mem_cons_of_mem _ hx)⟩
    rw [hsame e mem_cons_self]
    exact h.2.2.1

/-- The pages of a run are where its links lead, one after the other. -/
theorem iterate (h : FreeRun page head run stop) : (chainNext page)^[run.length] head = stop
      ∧ ∀ k < run.length, (run.map Prod.fst)[k]? = some ((chainNext page)^[k] head) := by
  induction run generalizing head with
  | nil => exact ⟨h, fun k hk => absurd hk (Nat.not_lt_zero k)⟩
  | cons e run ih =>
    obtain ⟨hstop, hall⟩ := ih h.2.2.2
    have hnext : chainNext page head = e.2.next := by rw [h.1, chainNext_eq h.2.1 h.2.2.1]
    rw [← hnext] at hstop hall
    refine ⟨hstop, fun k hk => ?_⟩
    cases k with
    | zero => exact congrArg some h.1.symm
    | succ k => exact hall k (Nat.lt_of_succ_lt_succ hk)

end FreeRun

/-! ## §2. Readers -/

/-- The same pages, with other faults ahead. -/
def Pager.Quiet (p q : Pager) : Prop := ∃ faults, q = p.withFaults faults

theorem Pager.Quiet.refl (p : Pager) : p.Quiet p := ⟨p.faults, rfl⟩

variable {p q : Pager} {head : PageId}

theorem Pager.Quiet.trans {r : Pager} (h : p.Quiet q) (h' : q.Quiet r) : p.Quiet r := by
  obtain ⟨faults, rfl⟩ := h
  obtain ⟨faults', rfl⟩ := h'
  exact ⟨faults', rfl⟩

theorem Pager.Quiet.page (h : p.Quiet q) : q.page = p.page := by
  obtain ⟨faults, rfl⟩ := h
  rfl

theorem Pager.await_eq_ok (h : Pager.await p = .ok () q) : p.Quiet q := by
  unfold Pager.await at h
  rw [get_bind] at h
  cases hf : p.faults with
  | nil =>
    rw [hf] at h
    cases h
    exact Pager.Quiet.refl p
  | cons fault faults =>
    cases fault with
    | none =>
      rw [hf] at h
      cases h
      exact ⟨faults, rfl⟩
    | _ =>
      rw [hf] at h
      cases h

theorem readFreePage_eq_ok {id : PageId} {body : FreePage} (h : readFreePage id p = .ok body q) :
    p.page id = some (.free body) ∧ p.Quiet q := by
  unfold readFreePage at h
  obtain ⟨_, r, hawait, h⟩ := bind_eq_ok.mp h
  have hq := Pager.await_eq_ok hawait
  rw [get_bind, hq.page] at h
  cases hpage : p.page id with
  | none =>
    rw [hpage] at h
    cases h
  | some page =>
    rw [hpage] at h
    cases page with
    | free found =>
      cases h
      exact ⟨rfl, hq⟩
    | _ => cases h

theorem readChainSummary_eq_ok {summary : ChainSummary}
    (h : readChainSummary head p = .ok summary q) : p.Quiet q := by
  unfold readChainSummary at h
  split_ifs at h with hhead
  · cases h
    exact Pager.Quiet.refl p
  · obtain ⟨body, r, hread, h⟩ := bind_eq_ok.mp h
    cases h
    exact (readFreePage_eq_ok hread).2

theorem hareNext_eq_ok {hare next : PageId} (h : hareNext hare p = .ok next q) :
    next = chainNext p.page hare ∧ p.Quiet q := by
  unfold hareNext at h
  split_ifs at h with hzero
  · cases h
    rw [hzero]
    exact ⟨rfl, Pager.Quiet.refl p⟩
  · obtain ⟨body, r, hread, h⟩ := bind_eq_ok.mp h
    cases h
    obtain ⟨hpage, hq⟩ := readFreePage_eq_ok hread
    exact ⟨(chainNext_eq hzero hpage).symm, hq⟩

/-- What one hop of the walk did. -/
theorem ChainWalk.advance_eq_ok {walk walk' : ChainWalk} {found : Option PageId}
    (h : walk.advance p = .ok (found, walk') q) :
    p.Quiet q ∧ (walk.tortoise = 0 ∧ found = none ∧ walk'.tortoise = 0
      ∨ walk.tortoise ≠ 0 ∧ found = some walk.tortoise
        ∧ (∃ body, p.page walk.tortoise = some (.free body) ∧ walk'.tortoise = body.next
          ∧ walk'.entries = body.entries)
        ∧ walk'.hare = chainNext p.page (chainNext p.page walk.hare)
        ∧ ¬ (walk'.hare ≠ 0 ∧ walk'.hare = walk'.tortoise)) := by
  unfold ChainWalk.advance at h
  split_ifs at h with hzero
  · cases h
    exact ⟨Pager.Quiet.refl p, Or.inl ⟨hzero, rfl, hzero⟩⟩
  · obtain ⟨body, r, hread, h⟩ := bind_eq_ok.mp h
    obtain ⟨hpage, hq⟩ := readFreePage_eq_ok hread
    obtain ⟨hare, r', hhare, h⟩ := bind_eq_ok.mp h
    obtain ⟨hare', r'', hhare', h⟩ := bind_eq_ok.mp h
    obtain ⟨rfl, hq'⟩ := hareNext_eq_ok hhare
    obtain ⟨rfl, hq''⟩ := hareNext_eq_ok hhare'
    rw [hq'.page, hq.page] at h
    split_ifs at h with hmeet
    · cases h
    · cases h
      exact ⟨hq.trans (hq'.trans hq''), Or.inr ⟨hzero, rfl, ⟨body, hpage, rfl, rfl⟩, rfl, hmeet⟩⟩

/-- What a bounded walk read: a run of the chain, at its end or as long as the
    bound. -/
theorem readPrefixFrom_eq_ok (turns : Nat) :
    ∀ {p q : Pager} {walk walk' : ChainWalk} {entries entries' : List (CommitId × PageId)}
      {pages pages' : List PageId},
      readPrefixFrom turns walk entries pages p = .ok (entries', pages', walk') q →
      p.Quiet q ∧ ∃ run, FreeRun p.page walk.tortoise run walk'.tortoise
        ∧ entries' = entries ++ run.flatMap (fun e => e.2.entries)
        ∧ pages' = pages ++ run.map Prod.fst
        ∧ (walk'.tortoise = 0 ∨ run.length = turns) := by
  induction turns with
  | zero =>
    intro p q walk walk' entries entries' pages pages' h
    cases h
    exact ⟨Pager.Quiet.refl p, [], rfl, (append_nil _).symm, (append_nil _).symm, Or.inr rfl⟩
  | succ turns ih =>
    intro p q walk walk' entries entries' pages pages' h
    unfold readPrefixFrom at h
    obtain ⟨⟨found, step⟩, r, hadvance, h⟩ := bind_eq_ok.mp h
    obtain ⟨hq, hcase⟩ := ChainWalk.advance_eq_ok hadvance
    rcases hcase with ⟨hzero, rfl, hend⟩ | ⟨hne, rfl, ⟨body, hpage, hnext, hentries⟩, -, -⟩
    · cases h
      exact ⟨hq, [], hzero.trans hend.symm, (append_nil _).symm, (append_nil _).symm, Or.inl hend⟩
    · obtain ⟨hq', run, hrun, rfl, rfl, hlen⟩ := ih h
      rw [hq.page, hnext] at hrun
      refine ⟨hq.trans hq', (walk.tortoise, body) :: run, ⟨rfl, hne, hpage, hrun⟩, ?_, ?_, ?_⟩
      · rw [hentries, append_assoc]
        rfl
      · rw [append_assoc]
        rfl
      · exact hlen.imp_right fun hlen => by rw [length_cons, hlen]

theorem readChainPrefix_eq_ok {turns : Nat} {window : ChainPrefix}
    (h : readChainPrefix head turns p = .ok window q) :
    p.Quiet q ∧ ∃ run, FreeRun p.page head run window.tail.head
      ∧ window.entries = run.flatMap (fun e => e.2.entries)
      ∧ window.chainPages = run.map Prod.fst
      ∧ (window.tail.head = 0 ∨ run.length = turns) := by
  unfold readChainPrefix at h
  obtain ⟨⟨entries, pages, walk⟩, r, hread, h⟩ := bind_eq_ok.mp h
  obtain ⟨hq, run, hrun, rfl, rfl, hlen⟩ := readPrefixFrom_eq_ok turns hread
  obtain ⟨summary, r', hsummary, h⟩ := bind_eq_ok.mp h
  cases h
  exact ⟨hq.trans (readChainSummary_eq_ok hsummary), run, hrun, nil_append _, nil_append _, hlen⟩

/-- **What `read_chain` returns**: the pages of the whole chain, and the entries
    they hold. -/
theorem readFreeChain_spec {entries : List (CommitId × PageId)} {pages : List PageId}
    (h : readFreeChain head p = .ok (entries, pages) q) :
    p.Quiet q ∧ ∃ run, FreeRun p.page head run 0
      ∧ entries = run.flatMap (fun e => e.2.entries) ∧ pages = run.map Prod.fst := by
  unfold readFreeChain at h
  rw [get_bind] at h
  obtain ⟨window, r, hread, h⟩ := bind_eq_ok.mp h
  obtain ⟨hq, run, hrun, hentries, hpages, -⟩ := readChainPrefix_eq_ok hread
  split_ifs at h with hend
  · cases h
    rw [hend] at hrun
    exact ⟨hq, run, hrun, hentries, hpages⟩
  · cases h

/-! ## §3. The walk ends -/

/-- Both cursors after one more hop. -/
theorem cursors_succ {page : PageId → Option Page} {walk walk' : ChainWalk} {body : FreePage}
    {hops : Nat} (hslow : walk.tortoise = (chainNext page)^[hops] head)
    (hfast : walk.hare = (chainNext page)^[2 * hops] head) (hne : walk.tortoise ≠ 0)
    (hpage : page walk.tortoise = some (.free body)) (hnext : walk'.tortoise = body.next)
    (hhop : walk'.hare = chainNext page (chainNext page walk.hare)) :
    walk'.tortoise = (chainNext page)^[hops + 1] head
      ∧ walk'.hare = (chainNext page)^[2 * (hops + 1)] head := by
  refine ⟨by rw [hnext, Function.iterate_succ_apply', ← hslow, chainNext_eq hne hpage], ?_⟩
  show walk'.hare = (chainNext page)^[(2 * hops + 1) + 1] head
  rw [hhop, hfast, Function.iterate_succ_apply', Function.iterate_succ_apply']

/-- While the walk goes on its cursors are apart. -/
theorem readPrefixFrom_apart (turns : Nat) :
    ∀ {p q : Pager} {walk walk' : ChainWalk} {entries entries' : List (CommitId × PageId)}
      {pages pages' : List PageId} (hops : Nat),
      walk.tortoise = (chainNext p.page)^[hops] head →
      walk.hare = (chainNext p.page)^[2 * hops] head →
      readPrefixFrom turns walk entries pages p = .ok (entries', pages', walk') q →
      walk'.tortoise ≠ 0 → ∀ k, hops < k → k ≤ hops + turns →
        (chainNext p.page)^[2 * k] head ≠ (chainNext p.page)^[k] head := by
  induction turns with
  | zero =>
    intro p q walk walk' entries entries' pages pages' hops _ _ _ _ k hk hle
    omega
  | succ turns ih =>
    intro p q walk walk' entries entries' pages pages' hops htortoise hhare h hgoes k hk hle
    unfold readPrefixFrom at h
    obtain ⟨⟨found, step⟩, r, hadvance, h⟩ := bind_eq_ok.mp h
    obtain ⟨hq, hcase⟩ := ChainWalk.advance_eq_ok hadvance
    rcases hcase with ⟨-, rfl, hend⟩ | ⟨hne, rfl, ⟨body, hpage, hnext, -⟩, hhop, hapart⟩
    · cases h
      exact absurd hend hgoes
    · obtain ⟨hslow, hfast⟩ := cursors_succ htortoise hhare hne hpage hnext hhop
      by_cases hfirst : k = hops + 1
      · rw [hfirst, ← hslow, ← hfast]
        refine fun hmeet => hapart ⟨fun hzero => ?_, hmeet⟩
        rw [hmeet] at hzero
        -- a walk at its end stays there
        obtain ⟨-, run, hrun, -⟩ := readPrefixFrom_eq_ok turns h
        rw [hzero] at hrun
        cases run with
        | nil => exact hgoes hrun.symm
        | cons e run => exact hrun.2.1 hrun.1.symm
      · rw [← hq.page] at hslow hfast ⊢
        exact ih (hops + 1) hslow hfast h hgoes k (by omega) (by omega)

section Distinct

variable {turns : Nat} {walk : ChainWalk} {entries : List (CommitId × PageId)} {pages : List PageId}
  (h : readPrefixFrom turns (ChainWalk.new head) [] [] p = .ok (entries, pages, walk) q)

include h

/-- A walk that goes on has not come to a page twice: the cursors would have met. -/
theorem readPrefixFrom_distinct {i j : Nat} (hgoes : walk.tortoise ≠ 0) (hij : i < j)
    (hj : j ≤ turns) : (chainNext p.page)^[i] head ≠ (chainNext p.page)^[j] head := by
  intro heq
  obtain ⟨k, hpos, hk, hmeet⟩ := meet_of_repeat hij heq
  exact readPrefixFrom_apart turns 0 rfl rfl h hgoes k hpos (by omega) hmeet

theorem readPrefixFrom_nodup : pages.Nodup := by
  obtain ⟨-, run, hrun, -, rfl, hend⟩ := readPrefixFrom_eq_ok turns h
  by_cases hgoes : walk.tortoise = 0
  · rw [hgoes] at hrun
    exact hrun.nodup
  · have hlen := hend.resolve_left hgoes
    refine nodup_iff_getElem?_ne_getElem?.mpr fun i j hij hj heq => ?_
    rw [nil_append, length_map, hlen] at hj
    rw [nil_append, hrun.iterate.2 i (by omega), hrun.iterate.2 j (by omega)] at heq
    exact readPrefixFrom_distinct h hgoes hij hj.le (Option.some.inj heq)

end Distinct

theorem FreeRun.length_le {run : List (PageId × FreePage)} {stop : PageId}
    (h : FreeRun p.page head run stop) (hnodup : (run.map Prod.fst).Nodup) :
    run.length ≤ p.pageCount := by
  have hsub : run.map Prod.fst ⊆ (p.dirty ++ p.disk).map Prod.fst := by
    intro id hid
    obtain ⟨e, he, rfl⟩ := mem_map.mp hid
    exact Pager.mem_of_page (h.mem_page he).2
  have hlen := (subperm_of_subset hnodup hsub).length_le
  rw [length_map, length_map] at hlen
  exact hlen

/-- **The walk of `read_chain` ends.**  Were it to go on past every page, it would
    have come to one of them twice. -/
theorem readChainPrefix_ends {window : ChainPrefix}
    (h : readChainPrefix head (p.pageCount + 1) p = .ok window q) : window.tail.head = 0 := by
  unfold readChainPrefix at h
  obtain ⟨⟨entries, pages, walk⟩, r, hread, h⟩ := bind_eq_ok.mp h
  obtain ⟨summary, r', -, h⟩ := bind_eq_ok.mp h
  cases h
  have hnodup := readPrefixFrom_nodup hread
  obtain ⟨-, run, hrun, -, rfl, hend⟩ := readPrefixFrom_eq_ok _ hread
  refine hend.resolve_right fun hlen => ?_
  have := hrun.length_le hnodup
  omega

theorem readFreeChain_eq (head : PageId) (p : Pager) : readFreeChain head p = (do
      let window ← readChainPrefix head (p.pageCount + 1)
      pure (window.entries, window.chainPages) : PagerM _) p := by
  unfold readFreeChain
  rw [get_bind]
  cases hread : readChainPrefix head (p.pageCount + 1) p with
  | ok window q =>
    rw [bind_of_ok hread, bind_of_ok hread, if_pos (readChainPrefix_ends hread)]
  | error e q => rw [bind_of_error hread, bind_of_error hread]

end Pagedb
