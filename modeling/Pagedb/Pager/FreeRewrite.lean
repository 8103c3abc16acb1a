/-
  Pagedb.Pager.FreeRewrite — rewriting the head of the free-list chain
  (`pager/freelist/{read,write}.rs`).

  A rewrite reads a window of the chain, writes new pages in its place and links
  the last of them to the tail it never read.  Every page carries a summary of
  all entries from it on, so the summary of the tail's first page is where the
  new summaries start.

  Main results:
    * `carveHosts_spec`       — which pages the new window takes;
    * `writeChainPages_returns` — the new pages, linked to the tail;
    * `rewriteChain_returns`  — the chain after a rewrite, summaries included;
    * `chain_walk_finds_cycles` — a walk hands out no page twice and finds every cycle;
    * `countAtOrAboveFloor_returns` — stopping at a summary never changes the count.
-/
import Pagedb.Pager.FreeChain
import Pagedb.Pager.FreeCodec

namespace Pagedb

open Lib List

/-! ## §1. Summaries -/

/-- The entries of a run of chain pages. -/
abbrev heldBy (run : List (PageId × FreePage)) : List (CommitId × PageId) :=
  run.flatMap fun e => e.2.entries

/-- The summary that is true of these entries.  The smallest tag of none is
    `u64::MAX`, the largest is zero. -/
def ChainSummary.of (entries : List (CommitId × PageId)) : ChainSummary where
  entries := entries.length
  maxCid := (entries.map Prod.fst).foldl max 0
  minCid := (entries.map Prod.fst).foldl min U64_MAX

/-- Every page of the run carries the true summary of what follows from it. -/
def Summarised : List (PageId × FreePage) → Prop
  | [] => True
  | e :: run => e.2.summary = ChainSummary.of (heldBy (e :: run)) ∧ Summarised run

theorem Summarised.drop {run : List (PageId × FreePage)} (h : Summarised run) (n : Nat) :
    Summarised (run.drop n) := by
  induction n generalizing run with
  | zero => exact h
  | succ n ih =>
    cases run with
    | nil => exact h
    | cons e run => exact ih h.2

section Folds

variable (l l' : List Nat) (a : Nat)

theorem foldl_max_append : (l ++ l').foldl max a = l.foldl max (l'.foldl max a) := by
  rw [(@List.perm_append_comm _ l l').foldl_eq, foldl_append]

theorem foldl_min_append : (l ++ l').foldl min a = l.foldl min (l'.foldl min a) := by
  rw [(@List.perm_append_comm _ l l').foldl_eq, foldl_append]

end Folds

theorem ChainSummary.add_of {chunk below : List (CommitId × PageId)}
    (h : (chunk ++ below).length ≤ U64_MAX) :
    (ChainSummary.of below).add chunk = ChainSummary.of (chunk ++ below) := by
  have hlen : satAdd below.length chunk.length = (chunk ++ below).length := by
    unfold satAdd
    rw [length_append] at h ⊢
    omega
  unfold ChainSummary.add ChainSummary.of
  rw [map_append, foldl_max_append, foldl_min_append]
  dsimp only
  rw [hlen]

theorem foldl_max_ge (l : List Nat) : ∀ a, a ≤ l.foldl max a ∧ ∀ x ∈ l, x ≤ l.foldl max a := by
  induction l with
  | nil =>
    intro a
    exact ⟨Nat.le_refl a, nofun⟩
  | cons y l ih =>
    intro a
    obtain ⟨hinit, hall⟩ := ih (max a y)
    refine ⟨Nat.le_trans (Nat.le_max_left a y) hinit, fun x hx => ?_⟩
    rcases mem_cons.mp hx with rfl | hx
    · exact Nat.le_trans (Nat.le_max_right a x) hinit
    · exact hall x hx

theorem foldl_min_le (l : List Nat) : ∀ a, l.foldl min a ≤ a ∧ ∀ x ∈ l, l.foldl min a ≤ x := by
  induction l with
  | nil =>
    intro a
    exact ⟨Nat.le_refl a, nofun⟩
  | cons y l ih =>
    intro a
    obtain ⟨hinit, hall⟩ := ih (min a y)
    refine ⟨Nat.le_trans hinit (Nat.min_le_left a y), fun x hx => ?_⟩
    rcases mem_cons.mp hx with rfl | hx
    · exact Nat.le_trans hinit (Nat.min_le_right a x)
    · exact hall x hx

variable {entries : List (CommitId × PageId)}

theorem ChainSummary.le_max {e : CommitId × PageId} (he : e ∈ entries) :
    e.1 ≤ (ChainSummary.of entries).maxCid :=
  (foldl_max_ge _ 0).2 e.1 (mem_map_of_mem he)

theorem ChainSummary.max_le {n : Nat} (h : ∀ e ∈ entries, e.1 ≤ n) :
    (ChainSummary.of entries).maxCid ≤ n := by
  have hfold : ∀ (l : List Nat) (a : Nat), a ≤ n → (∀ x ∈ l, x ≤ n) → l.foldl max a ≤ n := by
    intro l
    induction l with
    | nil => intro a ha _; exact ha
    | cons x l ih =>
      intro a ha hl
      exact ih (max a x) (Nat.max_le.mpr ⟨ha, hl x mem_cons_self⟩)
        fun y hy => hl y (mem_cons_of_mem x hy)
  refine hfold _ 0 (Nat.zero_le n) fun x hx => ?_
  obtain ⟨e, he, rfl⟩ := mem_map.mp hx
  exact h e he

theorem ChainSummary.min_le {e : CommitId × PageId} (he : e ∈ entries) :
    (ChainSummary.of entries).minCid ≤ e.1 :=
  (foldl_min_le _ U64_MAX).2 e.1 (mem_map_of_mem he)

/-! ## §2. Reading a chain that ends -/

/-- No fault lies ahead. -/
def Pager.Clear (p : Pager) : Prop := p.faults = []

section Read

variable {p : Pager} {head id : PageId} {body : FreePage} {run : List (PageId × FreePage)}

theorem Pager.await_run (hp : p.Clear) : Pager.await p = .ok () p := by
  unfold Pager.await
  rw [get_bind, show p.faults = [] from hp]
  rfl

theorem Pager.await_returns (p : Pager) :
    Returns Pager.Clear Pager.await p fun _ q => p.Quiet q where
  sound := fun _ _ h => Pager.await_eq_ok h
  total := fun hp => ⟨(), p, Pager.await_run hp, hp⟩

theorem readFreePage_returns (h : p.page id = some (.free body)) :
    Returns Pager.Clear (readFreePage id) p fun b q => b = body ∧ p.Quiet q := by
  unfold readFreePage
  refine (Pager.await_returns p).bind fun _ q hq => Returns.get ?_
  rw [hq.page, h]
  exact Returns.pure ⟨rfl, hq⟩

/-- Where the walk is after some hops. -/
def pageAt (run : List (PageId × FreePage)) (hops : Nat) : PageId := (run[hops]?).elim 0 Prod.fst

variable {page : PageId → Option Page}

theorem iterate_chainNext (h : FreeRun page head run 0) (hops : Nat) :
    (chainNext page)^[hops] head = pageAt run hops := by
  induction hops generalizing head run with
  | zero =>
    cases run with
    | nil => exact h
    | cons e run => exact h.1
  | succ hops ih =>
    rw [Function.iterate_succ_apply]
    cases run with
    | nil =>
      have hzero : chainNext page head = 0 := by
        rw [show head = 0 from h]
        rfl
      have hend : FreeRun page 0 [] 0 := rfl
      rw [hzero]
      exact ih hend
    | cons e run =>
      rw [h.1, chainNext_eq h.2.1 h.2.2.1]
      exact ih h.2.2.2

/-- A hop of the fast cursor. -/
theorem hareNext_returns (h : FreeRun p.page head run 0) (hops : Nat) :
    Returns Pager.Clear (hareNext (pageAt run hops)) p fun next q =>
      next = pageAt run (hops + 1) ∧ p.Quiet q := by
  have hnext : chainNext p.page (pageAt run hops) = pageAt run (hops + 1) := by
    rw [← iterate_chainNext h, ← iterate_chainNext h, Function.iterate_succ_apply']
  unfold hareNext
  split_ifs with hzero
  · rw [hzero] at hnext
    exact Returns.pure ⟨hnext, Pager.Quiet.refl p⟩
  · unfold pageAt at hzero hnext ⊢
    cases hat : run[hops]? with
    | none =>
      rw [hat] at hzero
      exact absurd rfl hzero
    | some e =>
      obtain ⟨hid, hpage⟩ := h.mem_page (mem_of_getElem? hat)
      rw [hat] at hnext
      refine (readFreePage_returns hpage).bind fun b q hb => ?_
      obtain ⟨rfl, hq⟩ := hb
      refine Returns.pure ⟨?_, hq⟩
      rw [← hnext]
      exact (chainNext_eq hid hpage).symm

/-- On a chain that ends the cursors only meet past its end. -/
theorem pageAt_apart (h : FreeRun page head run 0) {hops : Nat} (hpos : 0 < hops) :
    ¬ (pageAt run (2 * hops) ≠ 0 ∧ pageAt run (2 * hops) = pageAt run hops) := by
  rintro ⟨hne, hmeet⟩
  unfold pageAt at hne hmeet
  cases hfast : run[2 * hops]? with
  | none =>
    rw [hfast] at hne
    exact hne rfl
  | some e =>
    cases hslow : run[hops]? with
    | none =>
      have := List.getElem?_eq_none_iff.mp hslow
      rw [getElem?_eq_none (by omega)] at hfast
      cases hfast
    | some e' =>
      rw [hfast, hslow] at hmeet
      have hid : e.1 = e'.1 := hmeet
      have hlt : 2 * hops < (run.map Prod.fst).length := by
        rw [length_map]
        exact (List.getElem?_eq_some_iff.mp hfast).1
      have hsame : (run.map Prod.fst)[2 * hops]? = (run.map Prod.fst)[hops]? := by
        rw [getElem?_map, getElem?_map, hfast, hslow]
        exact congrArg some hid
      have := (getElem?_inj hlt h.nodup).mp hsame
      omega

/-- The walk before its hop number `hops`. -/
structure WalkAt (run : List (PageId × FreePage)) (walk : ChainWalk) (hops : Nat) : Prop where
  tortoise : walk.tortoise = pageAt run hops
  hare : walk.hare = pageAt run (2 * hops)

theorem WalkAt.new (h : FreeRun page head run 0) :
    WalkAt run (ChainWalk.new head) 0 := ⟨iterate_chainNext h 0, iterate_chainNext h 0⟩

/-- **One hop** on a chain that ends: the next page, or the end. -/
theorem ChainWalk.advance_returns {walk : ChainWalk} {hops : Nat} (h : FreeRun p.page head run 0)
    (hwalk : WalkAt run walk hops) :
    Returns Pager.Clear walk.advance p fun r q => p.Quiet q
      ∧ (run.length ≤ hops ∧ r.1 = none ∧ r.2.tortoise = 0
        ∨ ∃ e, run.drop hops = e :: run.drop (hops + 1) ∧ r.1 = some e.1
          ∧ WalkAt run r.2 (hops + 1) ∧ r.2.entries = e.2.entries
          ∧ r.2.lastSummary = e.2.summary) := by
  unfold ChainWalk.advance
  rw [hwalk.tortoise, hwalk.hare]
  cases hat : run[hops]? with
  | none =>
    have hzero : pageAt run hops = 0 := by
      unfold pageAt
      rw [hat]
      rfl
    rw [if_pos hzero]
    exact Returns.pure ⟨Pager.Quiet.refl p, Or.inl ⟨List.getElem?_eq_none_iff.mp hat, rfl, hzero⟩⟩
  | some e =>
    have hrest : run.drop hops = e :: run.drop (hops + 1) := by
      rw [drop_eq_getElem?_toList_append, hat]
      rfl
    obtain ⟨hid, hpage⟩ := h.mem_page (mem_of_getElem? hat)
    have hcur : pageAt run hops = e.1 := by
      unfold pageAt
      rw [hat]
      rfl
    rw [hcur, if_neg hid]
    have hnext : e.2.next = pageAt run (hops + 1) := by
      rw [← iterate_chainNext h, Function.iterate_succ_apply', iterate_chainNext h, hcur,
        chainNext_eq hid hpage]
    refine (readFreePage_returns hpage).bind fun b q hb => ?_
    obtain ⟨rfl, hq⟩ := hb
    rw [← hq.page] at h
    refine (hareNext_returns h (2 * hops)).bind fun mid q' hmid => ?_
    obtain ⟨rfl, hq'⟩ := hmid
    rw [← hq'.page] at h
    refine (hareNext_returns h (2 * hops + 1)).bind fun fast q'' hfast => ?_
    obtain ⟨rfl, hq''⟩ := hfast
    have hgoes : ¬ (pageAt run (2 * hops + 1 + 1) ≠ 0
        ∧ pageAt run (2 * hops + 1 + 1) = e.2.next) := by
      rw [hnext]
      exact pageAt_apart h (Nat.succ_pos hops)
    rw [if_neg hgoes]
    exact Returns.pure
      ⟨hq.trans (hq'.trans hq''), Or.inr ⟨e, hrest, rfl, ⟨hnext, rfl⟩, rfl, rfl⟩⟩

theorem heldBy_cons (e : PageId × FreePage) (run : List (PageId × FreePage)) :
    heldBy (e :: run) = e.2.entries ++ heldBy run := rfl

/-- The loop of `read_chain_prefix` reads the next pages of the chain. -/
theorem readPrefixFrom_returns (turns : Nat) :
    ∀ {p : Pager} {walk : ChainWalk} {hops : Nat} (entries : List (CommitId × PageId))
      (pages : List PageId), FreeRun p.page head run 0 → WalkAt run walk hops →
      Returns Pager.Clear (readPrefixFrom turns walk entries pages) p fun r q => p.Quiet q
        ∧ r.1 = entries ++ heldBy ((run.drop hops).take turns)
        ∧ r.2.1 = pages ++ ((run.drop hops).take turns).map Prod.fst
        ∧ r.2.2.tortoise = pageAt run (hops + turns) := by
  induction turns with
  | zero =>
    intro p walk hops entries pages _ hwalk
    refine Returns.pure ⟨Pager.Quiet.refl p, ?_, ?_, hwalk.tortoise⟩
    · simp
    · simp
  | succ turns ih =>
    intro p walk hops entries pages h hwalk
    unfold readPrefixFrom
    refine (ChainWalk.advance_returns h hwalk).bind fun r q hr => ?_
    obtain ⟨found, step⟩ := r
    dsimp only at hr
    rcases hr with ⟨hq, ⟨hlen, rfl, hend⟩ | ⟨e, hrest, rfl, hstep, hentries, -⟩⟩
    · have hpast : pageAt run (hops + (turns + 1)) = 0 := by
        unfold pageAt
        rw [getElem?_eq_none (by omega)]
        rfl
      rw [drop_of_length_le hlen, hpast]
      refine Returns.pure ⟨hq, ?_, ?_, hend⟩
      · simp
      · simp
    · rw [← hq.page] at h
      refine (ih (entries ++ step.entries) (pages ++ [e.1]) h hstep).weaken fun r q' hr' => ?_
      obtain ⟨hq', hheld, hpages, hend⟩ := hr'
      rw [hrest, take_succ_cons, heldBy_cons, map_cons]
      refine ⟨hq.trans hq', ?_, ?_, ?_⟩
      · rw [hheld, hentries, append_assoc]
      · rw [hpages, append_assoc]
        rfl
      · rw [hend, Nat.add_right_comm, Nat.add_assoc]

/-! ### Chains with a cycle -/

/-- Every page the chain leads to is a free-list page: it never ends. -/
def Endless (page : PageId → Option Page) (head : PageId) : Prop :=
  ∀ k, (chainNext page)^[k] head ≠ 0 ∧ ∃ body, page ((chainNext page)^[k] head) = some (.free body)

theorem readFreePage_run (hp : p.Clear) (h : p.page id = some (.free body)) :
    readFreePage id p = .ok body p := by
  unfold readFreePage
  rw [bind_of_ok (Pager.await_run hp), get_bind, h]
  rfl

theorem hareNext_run (hp : p.Clear) (hid : id ≠ 0) (h : p.page id = some (.free body)) :
    hareNext id p = .ok (chainNext p.page id) p := by
  unfold hareNext
  rw [if_neg hid, bind_of_ok (readFreePage_run hp h), chainNext_eq hid h]
  rfl

/-- On a chain that never ends a hop fails with the cycle or not at all. -/
theorem ChainWalk.advance_run {walk : ChainWalk} {hops : Nat} (hp : p.Clear)
    (h : Endless p.page head) (hslow : walk.tortoise = (chainNext p.page)^[hops] head)
    (hfast : walk.hare = (chainNext p.page)^[2 * hops] head) :
    walk.advance p = .error .pageChainCycle p ∨ ∃ r, walk.advance p = .ok r p := by
  obtain ⟨hne, body, hpage⟩ := h hops
  obtain ⟨hne₁, body₁, hpage₁⟩ := h (2 * hops)
  obtain ⟨hne₂, body₂, hpage₂⟩ := h (2 * hops + 1)
  rw [Function.iterate_succ_apply'] at hne₂ hpage₂
  unfold ChainWalk.advance
  rw [hslow, hfast, if_neg hne, bind_of_ok (readFreePage_run hp hpage),
    bind_of_ok (hareNext_run hp hne₁ hpage₁), bind_of_ok (hareNext_run hp hne₂ hpage₂)]
  split_ifs with hmeet
  · exact Or.inl rfl
  · exact Or.inr ⟨_, rfl⟩

theorem readPrefixFrom_run (hp : p.Clear) (h : Endless p.page head) (turns : Nat) :
    ∀ {walk : ChainWalk} {hops : Nat} (entries : List (CommitId × PageId)) (pages : List PageId),
      walk.tortoise = (chainNext p.page)^[hops] head →
      walk.hare = (chainNext p.page)^[2 * hops] head →
      readPrefixFrom turns walk entries pages p = .error .pageChainCycle p
        ∨ ∃ r, readPrefixFrom turns walk entries pages p = .ok r p := by
  induction turns with
  | zero => exact fun _ _ _ _ => Or.inr ⟨_, rfl⟩
  | succ turns ih =>
    intro walk hops entries pages hslow hfast
    unfold readPrefixFrom
    rcases ChainWalk.advance_run hp h hslow hfast with herror | ⟨⟨found, step⟩, hok⟩
    · exact Or.inl (bind_of_error herror)
    · rw [bind_of_ok hok]
      rcases (ChainWalk.advance_eq_ok hok).2 with
        ⟨hzero, -⟩ | ⟨hne, rfl, ⟨body, hpage, hnext, -⟩, hhop, -⟩
      · exact absurd (hslow.symm.trans hzero) (h hops).1
      · obtain ⟨hslow', hfast'⟩ := cursors_succ hslow hfast hne hpage hnext hhop
        exact ih _ _ hslow' hfast'

/-- **The walk finds every cycle and hands out no page twice.**  As long as its hops
    return pages these are distinct, whatever the links are.  On a chain that ends they
    are the pages of the chain in order, and the hop after the last finds the end.  On a
    chain that comes back after `m` pages to a cycle of `c` pages, one of the first
    `m + c` hops reports the cycle. -/
theorem chain_walk_finds_cycles (p : Pager) (head : PageId) (turns : Nat) :
    (∀ entries pages walk q, readPrefixFrom turns (ChainWalk.new head) [] [] p
        = .ok (entries, pages, walk) q → pages.Nodup)
      ∧ (∀ run, FreeRun p.page head run 0 → p.Clear → ∃ entries walk q,
          readPrefixFrom turns (ChainWalk.new head) [] [] p
            = .ok (entries, (run.map Prod.fst).take turns, walk) q
          ∧ (run.length ≤ turns → ∃ walk', walk.advance q = .ok (none, walk') q))
      ∧ ∀ m c, 0 < c → Endless p.page head → p.Clear →
          (chainNext p.page)^[m] head = (chainNext p.page)^[m + c] head → m + c ≤ turns →
          readPrefixFrom turns (ChainWalk.new head) [] [] p = .error .pageChainCycle p := by
  refine ⟨fun _ _ _ _ => readPrefixFrom_nodup, fun run hrun hp => ?_,
    fun m c hc hendless hp hcycle hturns => ?_⟩
  · have hreturns := readPrefixFrom_returns turns [] [] hrun (WalkAt.new hrun)
    obtain ⟨⟨entries, pages, walk⟩, q, hread, -⟩ := hreturns.total hp
    obtain ⟨-, -, hpages, htail⟩ := hreturns.sound _ _ hread
    dsimp only at hpages htail
    rw [drop_zero, nil_append, map_take] at hpages
    refine ⟨entries, walk, q, by rw [hread, hpages], fun hlen => ?_⟩
    have hzero : walk.tortoise = 0 := by
      rw [htail, Nat.zero_add]
      unfold pageAt
      rw [getElem?_eq_none hlen]
      rfl
    unfold ChainWalk.advance
    rw [if_pos hzero]
    exact ⟨_, rfl⟩
  · rcases @readPrefixFrom_run p head hp hendless turns (ChainWalk.new head) 0 [] []
      rfl rfl with herror | ⟨⟨entries, pages, walk⟩, hread⟩
    · exact herror
    · obtain ⟨-, run, hrun, -⟩ := readPrefixFrom_eq_ok turns hread
      have hgoes : walk.tortoise ≠ 0 := by
        rw [← hrun.iterate.1]
        exact (hendless _).1
      exact absurd hcycle (readPrefixFrom_distinct hread hgoes (by omega) hturns)

/-- Three free-list pages, the last of which links back to the second. -/
def loopedPager : Pager :=
  let page (next : PageId) : FreePage := ⟨next, [], 0, 0, U64_MAX⟩
  ⟨[(4, .free (page 5)), (5, .free (page 6)), (6, .free (page 5))], [], [], []⟩

theorem chain_walk_finds_cycles_looped :
    readPrefixFrom 3 (ChainWalk.new 4) [] [] loopedPager = .error .pageChainCycle loopedPager := by
  refine (chain_walk_finds_cycles loopedPager 4 3).2.2 1 2 (by decide) (fun k => ?_) rfl (by decide)
    (by decide)
  have hmem : (chainNext loopedPager.page)^[k] 4 ∈ [4, 5, 6] := by
    induction k with
    | zero => decide
    | succ k ih =>
      rw [Function.iterate_succ_apply']
      revert ih
      generalize (chainNext loopedPager.page)^[k] 4 = x
      revert x
      decide
  revert hmem
  generalize (chainNext loopedPager.page)^[k] 4 = x
  intro hmem
  rcases mem_cons.mp hmem with rfl | hmem
  · exact ⟨by decide, _, rfl⟩
  rcases mem_cons.mp hmem with rfl | hmem
  · exact ⟨by decide, _, rfl⟩
  rw [mem_singleton.mp hmem]
  exact ⟨by decide, _, rfl⟩

theorem readChainSummary_returns (h : FreeRun p.page head run 0) (hsum : Summarised run) :
    Returns Pager.Clear (readChainSummary head) p fun s q =>
      s = ChainSummary.of (heldBy run) ∧ p.Quiet q := by
  unfold readChainSummary
  cases run with
  | nil =>
    rw [if_pos (show head = 0 from h)]
    exact Returns.pure ⟨rfl, Pager.Quiet.refl p⟩
  | cons e run =>
    rw [h.1, if_neg h.2.1]
    refine (readFreePage_returns h.2.2.1).bind fun b q hb => ?_
    obtain ⟨rfl, hq⟩ := hb
    exact Returns.pure ⟨hsum.1, hq⟩

theorem FreeRun.drop (h : FreeRun page head run 0) (n : Nat) :
    FreeRun page (pageAt run n) (run.drop n) 0 := by
  induction n generalizing head run with
  | zero =>
    rw [← iterate_chainNext h]
    exact h
  | succ n ih =>
    cases run with
    | nil => rfl
    | cons e run => exact ih h.2.2.2

/-- **What `read_chain_prefix` returns** on a chain that ends: its first pages,
    and where the rest starts. -/
theorem readChainPrefix_returns (h : FreeRun p.page head run 0) (hsum : Summarised run)
    (maxPages : Nat) :
    Returns Pager.Clear (readChainPrefix head maxPages) p fun w q => p.Quiet q
      ∧ w = { entries := heldBy (run.take maxPages)
              chainPages := (run.take maxPages).map Prod.fst
              tail := { head := pageAt run maxPages
                        summary := ChainSummary.of (heldBy (run.drop maxPages)) } } := by
  unfold readChainPrefix
  refine (readPrefixFrom_returns maxPages [] [] h (WalkAt.new h)).bind fun r q hr => ?_
  obtain ⟨entries, pages, walk⟩ := r
  obtain ⟨hq, hentries, hpages, hend⟩ := hr
  dsimp only at hentries hpages hend ⊢
  rw [Nat.zero_add] at hend
  rw [hend]
  have hdrop := h.drop maxPages
  rw [← hq.page] at hdrop
  refine (readChainSummary_returns hdrop (hsum.drop maxPages)).bind fun s q' hs => ?_
  obtain ⟨rfl, hq'⟩ := hs
  rw [drop_zero, nil_append] at hentries hpages
  rw [hentries, hpages]
  exact Returns.pure ⟨hq.trans hq', rfl⟩

/-- **What `read_chain` returns** on a chain that ends. -/
theorem readFreeChain_returns (h : FreeRun p.page head run 0) (hsum : Summarised run) :
    Returns Pager.Clear (readFreeChain head) p fun r q =>
      r = (heldBy run, run.map Prod.fst) ∧ p.Quiet q := by
  unfold readFreeChain
  refine Returns.get ?_
  refine (readChainPrefix_returns h hsum (p.pageCount + 1)).bind fun w q hw => ?_
  obtain ⟨hq, rfl⟩ := hw
  have hlen := h.length_le h.nodup
  have hend : pageAt run (p.pageCount + 1) = 0 := by
    unfold pageAt
    rw [getElem?_eq_none (by omega)]
    rfl
  dsimp only
  rw [if_pos hend, take_of_length_le (by omega)]
  exact Returns.pure ⟨rfl, hq⟩

end Read

/-! ## §3. Writing the new pages -/

/-- The pages the loop of `rewrite_chain` has taken after `k` hosts and `m` new
    pages. -/
def carving (hosts : List PageId) (next : PageId) (k m : Nat) : Carving where
  carved := (hosts.take k).reverse
  chainPages := hosts.take k ++ List.range' next m
  hosts := hosts.drop k
  next := next + m

theorem divCeil_le {a b c : Nat} (hb : 0 < b) : divCeil a b ≤ c ↔ a ≤ b * c := by
  unfold divCeil
  rw [← Nat.lt_succ_iff, Nat.div_lt_iff_lt_mul hb, Nat.succ_mul, Nat.mul_comm c b]
  omega

/-- The pages that the entries left after `k` hosts need. -/
def pagesNeeded (cap total k : Nat) : Nat :=
  if total - k = 0 then 0 else divCeil (total - k) cap

theorem pagesNeeded_le {cap total k n : Nat} (hcap : 0 < cap) :
    pagesNeeded cap total k ≤ n ↔ total - k ≤ cap * n := by
  unfold pagesNeeded
  split_ifs with hzero
  · rw [hzero]
    simp
  · exact divCeil_le hcap

section Carve

variable {cap total : Nat} {hosts : List PageId} {next : PageId} {k m : Nat}

theorem carving_carved (hk : k ≤ hosts.length) : (carving hosts next k m).carved.length = k := by
  show (hosts.take k).reverse.length = k
  rw [length_reverse, length_take]
  omega

theorem carving_pages (hk : k ≤ hosts.length) :
    (carving hosts next k m).chainPages.length = k + m := by
  show (hosts.take k ++ List.range' next m).length = k + m
  rw [length_append, length_take, length_range']
  omega

theorem carveHosts_done (hk : k ≤ hosts.length) (h : pagesNeeded cap total k ≤ k + m) (turns : Nat) :
    carveHosts cap total (turns + 1) (carving hosts next k m) = carving hosts next k m := by
  rw [carveHosts.eq_2]
  rw [carving_carved hk, carving_pages hk]
  exact if_pos h

/-- No host is left, or only one entry: the loop takes a new page. -/
theorem carveHosts_bump (hk : k ≤ hosts.length) (h : ¬ pagesNeeded cap total k ≤ k + m)
    (hlast : hosts.drop k = [] ∨ total - k ≤ 1) (turns : Nat) :
    carveHosts cap total (turns + 1) (carving hosts next k m)
      = carveHosts cap total turns (carving hosts next k (m + 1)) := by
  have hnone : (if 1 < total - k then (carving hosts next k m).hosts else []) = [] := by
    rcases hlast with hnil | hone
    · rw [show (carving hosts next k m).hosts = [] from hnil]
      exact ite_self []
    · exact if_neg (Nat.not_lt.mpr hone)
  rw [carveHosts.eq_2]
  unfold pagesNeeded at h
  rw [carving_carved hk, carving_pages hk, if_neg h, hnone]
  dsimp only
  congr 1
  unfold carving
  rw [range'_1_concat, ← append_assoc]
  rfl

/-- A host is left and more than one entry: the loop carves the host. -/
theorem carveHosts_host {h : PageId} {rest : List PageId} (hnodup : hosts.Nodup)
    (hhosts : hosts.drop k = h :: rest) (hneed : ¬ pagesNeeded cap total k ≤ k)
    (hmore : 1 < total - k) (turns : Nat) :
    carveHosts cap total (turns + 1) (carving hosts next k 0)
      = carveHosts cap total turns (carving hosts next (k + 1) 0) := by
  have hk : k ≤ hosts.length := by
    by_contra hge
    rw [drop_of_length_le (by omega)] at hhosts
    cases hhosts
  have hnew : h ∉ (hosts.take k).reverse := by
    intro hmem
    have hsplit : hosts = hosts.take k ++ h :: rest := by
      rw [← hhosts, take_append_drop]
    rw [hsplit] at hnodup
    exact (nodup_append.mp hnodup).2.2 h (mem_reverse.mp hmem) h mem_cons_self rfl
  have hget : hosts.take (k + 1) = hosts.take k ++ [h] := by
    rw [take_add_one, ← head?_drop, hhosts]
    rfl
  have hrest : hosts.drop (k + 1) = rest := by
    rw [← drop_drop, hhosts]
    rfl
  have hsome : (if 1 < total - k then (carving hosts next k 0).hosts else []) = h :: rest := by
    rw [if_pos hmore]
    exact hhosts
  rw [carveHosts.eq_2]
  unfold pagesNeeded at hneed
  rw [carving_carved hk, carving_pages hk, Nat.add_zero, if_neg hneed, hsome]
  dsimp only
  congr 1
  unfold carving
  rw [hget, hrest, insert_of_not_mem hnew, reverse_append]
  simp

/-- **The loop of `rewrite_chain`** takes hosts, then new pages, until the pages
    can hold the entries that are left.  At least one entry is left, and the loop
    ends within a turn per entry. -/
theorem carveHosts_spec (hcap : 0 < cap) (hnodup : hosts.Nodup) (turns : Nat) :
    ∀ k m, k ≤ hosts.length → (m = 0 ∨ hosts.drop k = [] ∨ total - k ≤ 1) →
      (k = 0 ∨ k < total) → k + m ≤ total → total < turns + (k + m) →
      ∃ k' m', carveHosts cap total turns (carving hosts next k m) = carving hosts next k' m'
        ∧ k' ≤ hosts.length ∧ (k' = 0 ∨ k' < total) ∧ k' + m' ≤ total
        ∧ total - k' ≤ cap * (k' + m') := by
  induction turns with
  | zero =>
    intro k m _ _ _ hle hturns
    omega
  | succ turns ih =>
    intro k m hk horder hleft hle hturns
    by_cases hdone : pagesNeeded cap total k ≤ k + m
    · exact ⟨k, m, carveHosts_done hk hdone turns, hk, hleft, hle, (pagesNeeded_le hcap).mp hdone⟩
    · -- a page per entry would be enough, so there are fewer
      have hfew : k + m < total - k := by
        by_contra hmany
        have hall : k + m ≤ cap * (k + m) := Nat.le_mul_of_pos_left _ hcap
        exact hdone ((pagesNeeded_le hcap).mpr (by omega))
      by_cases hlast : hosts.drop k = [] ∨ total - k ≤ 1
      · rw [carveHosts_bump hk hdone hlast turns]
        exact ih k (m + 1) hk (Or.inr hlast) hleft (by omega) (by omega)
      · obtain ⟨hsome, hmore⟩ := not_or.mp hlast
        obtain ⟨h, rest, hhosts⟩ := exists_cons_of_ne_nil hsome
        have hm : m = 0 := by
          rcases horder with hm | horder
          · exact hm
          · exact absurd horder hlast
        subst hm
        have hlt : k < hosts.length := by
          by_contra hge
          exact hsome (drop_of_length_le (Nat.not_lt.mp hge))
        rw [carveHosts_host hnodup hhosts hdone (by omega) turns]
        exact ih (k + 1) 0 hlt (Or.inl rfl) (Or.inr (by omega)) (by omega) (by omega)

end Carve

section Write

variable {p : Pager} {cap : Nat} {tailRun : List (PageId × FreePage)}

theorem writeFreePage_returns (p : Pager) (id : PageId) (page : FreePage) :
    Returns Pager.Clear (writeFreePage id page) p fun _ q =>
      q.page id = some (.free page) ∧ ∀ other, other ≠ id → q.page other = p.page other := by
  unfold writeFreePage
  refine (Pager.await_returns p).bind fun _ q hq => ?_
  have hwrite : Returns Pager.Clear (modify fun p : Pager => p.write id (.free page) : PagerM Unit) q
      fun _ r => r = q.write id (.free page) := Returns.modify (fun hclear => hclear) rfl
  refine hwrite.bind fun _ r hr => (Pager.await_returns r).weaken fun _ r' hr' => ?_
  rw [hr'.page, hr]
  refine ⟨Pager.page_write_self q id _, fun other hother => ?_⟩
  rw [Pager.page_write_ne q _ hother, hq.page]

/-- The new pages `run`, written before the pages of `tailRun`. -/
structure RunWritten (p : Pager) (cap : Nat) (ids : List PageId)
    (entries : List (CommitId × PageId)) (tailRun : List (PageId × FreePage)) (head : PageId)
    (run : List (PageId × FreePage)) (q : Pager) : Prop where
  pages : run.map Prod.fst = ids
  held : heldBy run = entries
  chain : FreeRun q.page head (run ++ tailRun) 0
  summarised : Summarised (run ++ tailRun)
  room : ∀ e ∈ run, e.2.entries.length ≤ cap
  frame : ∀ id, id ∉ ids → q.page id = p.page id

theorem heldBy_append (run run' : List (PageId × FreePage)) :
    heldBy (run ++ run') = heldBy run ++ heldBy run' := flatMap_append

/-- **The loop of `write_chain`.**  The pages after a page are written before it,
    so that their summary is known. -/
theorem writeChainPages_returns (ids : List PageId) :
    ∀ {p : Pager} {entries : List (CommitId × PageId)} {tail : ChainTail}, ids.Nodup →
      (∀ id ∈ ids, id ≠ 0 ∧ id ∉ tailRun.map Prod.fst) →
      FreeRun p.page tail.head tailRun 0 → Summarised tailRun →
      tail.summary = ChainSummary.of (heldBy tailRun) → entries.length ≤ cap * ids.length →
      entries.length + (heldBy tailRun).length ≤ U64_MAX →
      Returns Pager.Clear (writeChainPages cap ids entries tail) p fun written q =>
        written.head = ids.headD tail.head
        ∧ written.summary = ChainSummary.of (entries ++ heldBy tailRun)
        ∧ ∃ run, RunWritten p cap ids entries tailRun written.head run q := by
  induction ids with
  | nil =>
    intro p entries tail _ _ hrun hsum htail hroom _
    have hnone : entries = [] := length_eq_zero_iff.mp (by simpa using hroom)
    subst hnone
    exact Returns.pure ⟨rfl, htail, [], rfl, rfl, hrun, hsum, nofun, fun id _ => rfl⟩
  | cons id ids ih =>
    intro p entries tail hnodup hids hrun hsum htail hroom hcount
    obtain ⟨hfresh, hnodup⟩ := nodup_cons.mp hnodup
    obtain ⟨hid, hout⟩ := hids id mem_cons_self
    unfold writeChainPages
    -- the pages after this one
    refine (ih hnodup (fun x hx => hids x (mem_cons_of_mem id hx)) hrun hsum htail ?_ ?_).bind
      fun below q hbelow => ?_
    · rw [length_cons, Nat.mul_succ] at hroom
      rw [length_drop]
      omega
    · rw [length_drop]
      omega
    obtain ⟨hhead, hsummary, run, hw⟩ := hbelow
    have hsplit : entries.take cap ++ (entries.drop cap ++ heldBy tailRun)
        = entries ++ heldBy tailRun := by
      rw [← append_assoc, take_append_drop]
    have hadd : below.summary.add (entries.take cap)
        = ChainSummary.of (entries ++ heldBy tailRun) := by
      rw [hsummary, ← hsplit]
      refine ChainSummary.add_of ?_
      rw [hsplit, length_append]
      exact hcount
    dsimp only
    rw [hadd]
    -- this page
    generalize hbody : FreePage.mk below.head (entries.take cap)
      (ChainSummary.of (entries ++ heldBy tailRun)).entries
      (ChainSummary.of (entries ++ heldBy tailRun)).maxCid
      (ChainSummary.of (entries ++ heldBy tailRun)).minCid = body
    refine (writeFreePage_returns q id body).bind fun _ r hr => Returns.pure ⟨rfl, rfl, ?_⟩
    obtain ⟨hpage, hother⟩ := hr
    have hapart : ∀ e ∈ run ++ tailRun, e.1 ≠ id := by
      intro e he heq
      rcases mem_append.mp he with he | he
      · refine hfresh ?_
        rw [← hw.pages, ← heq]
        exact mem_map_of_mem he
      · exact hout (heq ▸ mem_map_of_mem he)
    have hentries : body.entries = entries.take cap := by rw [← hbody]
    have hnext : body.next = below.head := by rw [← hbody]
    refine ⟨(id, body) :: run, ?_, ?_, ?_, ?_, ?_, ?_⟩
    · rw [map_cons, hw.pages]
    · rw [heldBy_cons, hw.held, hentries, take_append_drop]
    · refine ⟨rfl, hid, hpage, ?_⟩
      rw [hnext]
      exact hw.chain.congr fun e he => hother e.1 (hapart e he)
    · refine ⟨?_, hw.summarised⟩
      show body.summary = ChainSummary.of (heldBy ((id, body) :: (run ++ tailRun)))
      rw [heldBy_cons, heldBy_append, hw.held, hentries, hsplit, ← hbody]
      rfl
    · intro e he
      rcases mem_cons.mp he with rfl | he
      · rw [hentries]
        exact length_take_le cap entries
      · exact hw.room e he
    · intro x hx
      rw [hother x fun heq => hx (heq ▸ mem_cons_self),
        hw.frame x fun hmem => hx (mem_cons_of_mem id hmem)]

/-- What `rewrite_chain` asks of its caller: the entries name distinct pages
    below the next one, hosts are some of them and no pages of the tail.  The
    entries are counted in a `u64`. -/
structure Rewritable (tailRun : List (PageId × FreePage)) (entries : List (CommitId × PageId))
    (hosts : List PageId) (next : PageId) : Prop where
  distinct : (entries.map Prod.snd).Nodup
  hosts_distinct : hosts.Nodup
  hosts_free : hosts ⊆ entries.map Prod.snd
  hosts_apart : ∀ id ∈ hosts, id ∉ tailRun.map Prod.fst
  named : ∀ e ∈ entries, e.2 ≠ 0 ∧ e.2 < next
  tail_below : ∀ id ∈ tailRun.map Prod.fst, id < next
  counted : entries.length + (heldBy tailRun).length ≤ U64_MAX

variable {entries : List (CommitId × PageId)}

/-- Carving some of the pages out of distinct entries leaves the others. -/
theorem length_filter_carved {carved : List PageId} (hdistinct : (entries.map Prod.snd).Nodup)
    (hcarved : carved.Nodup) (hsub : carved ⊆ entries.map Prod.snd) :
    (entries.filter fun e => !carved.contains e.2).length + carved.length = entries.length := by
  have hpages : ((entries.map Prod.snd).filter fun id => carved.contains id).Perm carved := by
    refine (perm_ext_iff_of_nodup (hdistinct.filter _) hcarved).mpr fun id => ?_
    rw [mem_filter, contains_iff_mem]
    exact ⟨fun h => h.2, fun h => ⟨hsub h, h⟩⟩
  have hlen := hpages.length_eq
  rw [filter_map, length_map] at hlen
  have hsplit := length_eq_length_filter_add (l := entries) fun e => carved.contains e.2
  have hlen : (entries.filter fun e => carved.contains e.2).length = carved.length := hlen
  omega

/-- **The chain after a rewrite.**  It takes some hosts and some new pages, holds
    the entries it took no host from, and goes on with the tail as it was. -/
theorem rewriteChain_returns {pageSize : Nat} {hosts : List PageId} {next : PageId}
    {tail : ChainTail} (hcap : 0 < chainCapacity pageSize)
    (hok : Rewritable tailRun entries hosts next) (hrun : FreeRun p.page tail.head tailRun 0)
    (hsum : Summarised tailRun) (htail : tail.summary = ChainSummary.of (heldBy tailRun)) :
    Returns Pager.Clear (rewriteChain pageSize entries hosts next tail) p fun r q =>
      ∃ used bumped run, (∃ unused, hosts = used ++ unused)
        ∧ r.2 = next + bumped ∧ bumped ≤ entries.length
        ∧ RunWritten p (chainCapacity pageSize) (used ++ List.range' next bumped)
          (entries.filter fun e => !used.contains e.2) tailRun r.1 run q := by
  unfold rewriteChain
  -- which pages are taken
  obtain ⟨k, m, hcarve, hk, hleft, hle, henough⟩ :=
    @carveHosts_spec _ entries.length hosts next hcap hok.hosts_distinct (entries.length + 1) 0 0
      (Nat.zero_le _) (Or.inl rfl) (Or.inl rfl) (Nat.zero_le _) (by omega)
  have hstart : ({ carved := [], chainPages := [], hosts := hosts, next := next } : Carving)
      = carving hosts next 0 0 := by
    simp [carving]
  rw [hstart, hcarve]
  have hused : (hosts.take k).Nodup := hok.hosts_distinct.sublist (take_sublist k hosts)
  have hsub : hosts.take k ⊆ entries.map Prod.snd :=
    fun id hid => hok.hosts_free (mem_of_mem_take hid)
  have hlen := length_filter_carved hok.distinct hused hsub
  rw [length_take, Nat.min_eq_left hk] at hlen
  have hkept : (entries.filter fun e => !(carving hosts next k m).carved.contains e.2)
      = entries.filter fun e => !(hosts.take k).contains e.2 := by
    refine filter_congr fun e _ => ?_
    show (!(hosts.take k).reverse.contains e.2) = _
    rw [contains_reverse]
  dsimp only
  rw [hkept]
  have hhost : ∀ id ∈ hosts.take k, id ≠ 0 ∧ id < next := by
    intro id hid
    obtain ⟨e, he, rfl⟩ := mem_map.mp (hsub hid)
    exact hok.named e he
  unfold writeFreeChain
  by_cases hempty : entries = []
  · -- nothing to hold: no page was taken
    subst hempty
    have hk0 : k = 0 := by simpa using hle.trans' (Nat.le_add_right k m)
    have hm0 : m = 0 := by simpa using hle.trans' (Nat.le_add_left m k)
    subst hk0 hm0
    refine Returns.pure ⟨[], 0, [], ⟨hosts, rfl⟩, rfl, Nat.le_refl 0, rfl, rfl, hrun, hsum,
      nofun, fun id _ => rfl⟩
  · have hpos : 0 < entries.length := length_pos_of_ne_nil hempty
    have hsome : (entries.filter fun e => !(hosts.take k).contains e.2).isEmpty = false := by
      rw [isEmpty_eq_false_iff]
      intro hnil
      rw [hnil, length_nil] at hlen
      omega
    rw [hsome]
    have hpages : (carving hosts next k m).chainPages = hosts.take k ++ List.range' next m := rfl
    rw [if_neg Bool.false_ne_true, hpages]
    have hwritten : Returns Pager.Clear (writeChainPages (chainCapacity pageSize)
        (hosts.take k ++ List.range' next m)
        (entries.filter fun e => !(hosts.take k).contains e.2) tail) p fun written q => ∃ run,
          RunWritten p (chainCapacity pageSize) (hosts.take k ++ List.range' next m)
            (entries.filter fun e => !(hosts.take k).contains e.2) tailRun written.head run q := by
      refine (writeChainPages_returns _ ?_ ?_ hrun hsum htail ?_ ?_).weaken fun _ _ hw => hw.2.2
      · refine nodup_append.mpr ⟨hused, nodup_range', fun a ha b hb heq => ?_⟩
        have hge := (mem_range'_1.mp hb).1
        rw [← heq] at hge
        exact Nat.not_lt.mpr hge (hhost a ha).2
      · intro id hid
        rcases mem_append.mp hid with hid | hid
        · exact ⟨(hhost id hid).1, hok.hosts_apart id (mem_of_mem_take hid)⟩
        · have hge := (mem_range'_1.mp hid).1
          obtain ⟨e, he⟩ := exists_mem_of_ne_nil entries hempty
          have hpos := Nat.zero_lt_of_lt (hok.named e he).2
          exact ⟨Nat.ne_of_gt (Nat.lt_of_lt_of_le hpos hge),
            fun hmem => Nat.not_lt.mpr hge (hok.tail_below id hmem)⟩
      · rw [length_append, length_take, length_range', Nat.min_eq_left hk]
        omega
      · have := hok.counted
        omega
    refine Returns.bind (P := fun head q => ∃ run, RunWritten p (chainCapacity pageSize)
      (hosts.take k ++ List.range' next m) (entries.filter fun e => !(hosts.take k).contains e.2)
      tailRun head run q) (hwritten.bind fun written q hw => Returns.pure hw) fun head q hw => ?_
    obtain ⟨run, hw⟩ := hw
    exact Returns.pure ⟨hosts.take k, m, run, ⟨hosts.drop k, (take_append_drop k hosts).symm⟩,
      rfl, Nat.le_trans (Nat.le_add_left m k) hle, hw⟩

/-- A new page's integers fit their fields, so its bytes are read back. -/
theorem RunWritten.fits {q : Pager} {ids : List PageId} {run : List (PageId × FreePage)}
    {head : PageId} {pageSize : Nat}
    (hw : RunWritten p (chainCapacity pageSize) ids entries tailRun head run q)
    (hcount : entries.length + (heldBy tailRun).length ≤ U64_MAX)
    (hsmall : chainCapacity pageSize < 256 ^ 4)
    (htags : ∀ e ∈ entries ++ heldBy tailRun, e.1 ≤ U64_MAX) (hnamed : ∀ e ∈ entries, e.2 ≤ U64_MAX)
    (hids : ∀ e ∈ run ++ tailRun, e.1 ≤ U64_MAX) : ∀ e ∈ run, e.2.Fits pageSize := by
  intro e he
  obtain ⟨front, rest, hsplit⟩ := append_of_mem he
  have hdrop : (run ++ tailRun).drop front.length = e :: (rest ++ tailRun) := by
    rw [hsplit, append_assoc, drop_left]
    rfl
  have hsum := hw.summarised.drop front.length
  have hchain := hw.chain.drop front.length
  rw [hdrop] at hsum hchain
  have hheld : heldBy run = entries := hw.held
  rw [hsplit, heldBy_append, heldBy_cons] at hheld
  have hlen := congrArg List.length hheld
  rw [length_append, length_append] at hlen
  have hmem : ∀ x ∈ heldBy (e :: (rest ++ tailRun)), x ∈ entries ++ heldBy tailRun := by
    intro x hx
    rw [← hheld, heldBy_cons, heldBy_append] at *
    simp only [mem_append] at hx ⊢
    tauto
  have hown : ∀ x ∈ e.2.entries, x ∈ entries := by
    intro x hx
    rw [← hheld]
    exact mem_append_right _ (mem_append_left _ hx)
  have hroom := hw.room e he
  have htotal : e.2.suffixEntries = (heldBy (e :: (rest ++ tailRun))).length :=
    congrArg ChainSummary.entries hsum.1
  have hmax : e.2.suffixMaxCid = (ChainSummary.of (heldBy (e :: (rest ++ tailRun)))).maxCid :=
    congrArg ChainSummary.maxCid hsum.1
  have hmin : e.2.suffixMinCid = (ChainSummary.of (heldBy (e :: (rest ++ tailRun)))).minCid :=
    congrArg ChainSummary.minCid hsum.1
  rw [heldBy_cons, heldBy_append, length_append, length_append] at htotal
  refine ⟨hroom, Nat.lt_of_le_of_lt hroom hsmall, by omega, ?_, by omega, ?_, ?_, fun x hx =>
    ⟨htags x (mem_append_left _ (hown x hx)), hnamed x (hown x hx)⟩⟩
  · -- the page it links to is a page of the chain, or none
    cases hrest : rest ++ tailRun with
    | nil =>
      rw [hrest] at hchain
      rw [show e.2.next = 0 from hchain.2.2.2]
      exact Nat.zero_le _
    | cons x more =>
      rw [hrest] at hchain
      rw [hchain.2.2.2.1]
      refine hids x ?_
      rw [hsplit, append_assoc, cons_append, hrest]
      exact mem_append_right _ (mem_cons_of_mem _ mem_cons_self)
  · rw [hmax]
    exact ChainSummary.max_le fun x hx => htags x (hmem x hx)
  · rw [hmin]
    exact (foldl_min_le _ U64_MAX).1

end Write

/-- **A rewrite replaces the window and nothing else.**  Let the chain end and
    its summaries be true.  The window is read; then for entries and hosts as the
    caller may pass them, `read_chain` of the new head returns the entries whose
    page hosts no chain page, then those of the tail; and the hosts used, the new
    pages, then the tail's.  A host is used only as a chain page, the next page id
    moves by the new pages, every summary is true, and the bytes of every new page
    decode to it. -/
theorem rewrite_replaces_window_exactly {p : Pager} {head : PageId}
    {run : List (PageId × FreePage)} {pageSize maxPages : Nat}
    (hcap : 0 < chainCapacity pageSize) (hsmall : chainCapacity pageSize < 256 ^ 4)
    (hrun : FreeRun p.page head run 0) (hsum : Summarised run) :
    Returns Pager.Clear (readChainPrefix head maxPages) p fun window q =>
      ∀ (entries : List (CommitId × PageId)) (hosts : List PageId) (next : PageId),
        Rewritable (run.drop maxPages) entries hosts next →
        (∀ e ∈ entries ++ heldBy (run.drop maxPages), e.1 ≤ U64_MAX) →
        next + entries.length ≤ U64_MAX →
        Returns Pager.Clear (rewriteChain pageSize entries hosts next window.tail) q
          fun r q' => ∃ used bumped fresh, (∃ unused, hosts = used ++ unused)
            ∧ fresh.map Prod.fst = used ++ List.range' next bumped
            ∧ r.2 = next + bumped
            ∧ (∀ e ∈ fresh, decodeChainPage (encodeChainPage pageSize e.2) = .ok e.2)
            ∧ FreeRun q'.page r.1 (fresh ++ run.drop maxPages) 0
            ∧ Summarised (fresh ++ run.drop maxPages)
            ∧ Returns Pager.Clear (readFreeChain r.1) q' fun chain _ =>
              chain = ((entries.filter fun e => !used.contains e.2) ++ heldBy (run.drop maxPages),
                used ++ List.range' next bumped ++ (run.drop maxPages).map Prod.fst) := by
  refine (readChainPrefix_returns hrun hsum maxPages).weaken fun window q hw => ?_
  obtain ⟨hq, rfl⟩ := hw
  intro entries hosts next hok htags hnext
  have htail := hrun.drop maxPages
  rw [← hq.page] at htail
  refine (rewriteChain_returns hcap hok htail (hsum.drop maxPages) rfl).weaken fun r q' hr => ?_
  obtain ⟨used, bumped, fresh, hused, hbump, hfew, hwritten⟩ := hr
  have hlen : (entries.filter fun e => !used.contains e.2).length ≤ entries.length :=
    length_filter_le _ _
  have hcount : (entries.filter fun e => !used.contains e.2).length
      + (heldBy (run.drop maxPages)).length ≤ U64_MAX :=
    Nat.le_trans (Nat.add_le_add_right hlen _) hok.counted
  have hlimit : next + bumped ≤ U64_MAX := Nat.le_trans (Nat.add_le_add_left hfew next) hnext
  have hnamed : ∀ e ∈ entries, e.2 < next := fun e he => (hok.named e he).2
  have hids : ∀ id ∈ used ++ List.range' next bumped ++ (run.drop maxPages).map Prod.fst,
      id < next + bumped := by
    intro id hid
    rcases mem_append.mp hid with hid | hid
    · rcases mem_append.mp hid with hid | hid
      · obtain ⟨unused, rfl⟩ := hused
        obtain ⟨e, he, rfl⟩ := mem_map.mp (hok.hosts_free (mem_append_left _ hid))
        exact Nat.lt_of_lt_of_le (hnamed e he) (Nat.le_add_right next bumped)
      · exact (mem_range'_1.mp hid).2
    · exact Nat.lt_of_lt_of_le (hok.tail_below id hid) (Nat.le_add_right next bumped)
  refine ⟨used, bumped, fresh, hused, hwritten.pages, hbump, ?_, hwritten.chain,
    hwritten.summarised, ?_⟩
  · have hsize : PAGE_HEADER_LEN ≤ bodyCapacity pageSize := by
      by_contra hshort
      unfold chainCapacity at hcap
      rw [Nat.sub_eq_zero_of_le (by unfold PAGE_HEADER_LEN at hshort; omega)] at hcap
      exact absurd hcap (by decide)
    refine fun e he => decodeChainPage_encode (hwritten.fits hcount hsmall ?_ ?_ ?_ e he) hsize
    · intro x hx
      rcases mem_append.mp hx with hx | hx
      · exact htags x (mem_append_left _ (mem_of_mem_filter hx))
      · exact htags x (mem_append_right _ hx)
    · intro x hx
      have hlt := hnamed x (mem_of_mem_filter hx)
      exact Nat.le_of_lt (Nat.lt_of_lt_of_le hlt (Nat.le_trans (Nat.le_add_right _ _) hnext))
    · intro x hx
      refine Nat.le_of_lt (Nat.lt_of_lt_of_le (hids x.1 ?_) hlimit)
      rw [← hwritten.pages, ← map_append]
      exact mem_map_of_mem hx
  · have hread := readFreeChain_returns hwritten.chain hwritten.summarised
    rw [heldBy_append, hwritten.held, map_append, hwritten.pages] at hread
    exact hread.weaken fun chain _ h => h.1

/-- The chain of pages 5 and 7. -/
def twoPageRun : List (PageId × FreePage) :=
  [(5, ⟨7, [(3, 9)], 3, 4, 1⟩), (7, ⟨0, [(4, 8), (1, 10)], 2, 4, 1⟩)]

def twoPageChain : Pager where
  disk := twoPageRun.map fun e => (e.1, .free e.2)
  dirty := []
  written := []
  faults := []

/-- A rewrite of page 5 that keeps page 7. -/
theorem rewrite_replaces_window_exactly_tail :
    ∃ window q head next q' used bumped t, readChainPrefix 5 1 twoPageChain = .ok window q
      ∧ rewriteChain 4096 [(3, 9), (0, 5)] [9] 12 window.tail q = .ok (head, next) q'
      ∧ next = 12 + bumped
      ∧ readFreeChain head q' = .ok (([(3, 9), (0, 5)].filter fun e => !used.contains e.2)
        ++ [(4, 8), (1, 10)], used ++ List.range' 12 bumped ++ [7]) t := by
  have hok : Rewritable (twoPageRun.drop 1) [(3, 9), (0, 5)] [9] 12 := by
    constructor <;> decide
  have hread := @rewrite_replaces_window_exactly twoPageChain 5 twoPageRun 4096 1 (by decide)
    (by decide) ⟨rfl, by decide, rfl, rfl, by decide, rfl, rfl⟩ ⟨by decide, by decide, trivial⟩
  obtain ⟨window, q, hwindow, hq⟩ := hread.total rfl
  have hrewrite := hread.sound _ _ hwindow [(3, 9), (0, 5)] [9] 12 hok (by decide) (by decide)
  obtain ⟨⟨head, next⟩, q', hrun, hq'⟩ := hrewrite.total hq
  obtain ⟨used, bumped, fresh, -, -, hnext, -, -, -, hchain⟩ := hrewrite.sound _ _ hrun
  obtain ⟨chain, t, hfound, -⟩ := hchain.total hq'
  obtain rfl := hchain.sound _ _ hfound
  exact ⟨window, q, head, next, q', used, bumped, t, hwindow, hrun, hnext, hfound⟩

/-! ## §4. Counting the entries at or above a floor -/

section Count

variable {p : Pager} {head : PageId} {run : List (PageId × FreePage)} {floor : CommitId}

/-- The entries whose tag is at or above the floor. -/
def stuckAt (floor : CommitId) (entries : List (CommitId × PageId)) : Nat :=
  entries.countP fun e => decide (floor ≤ e.1)

theorem stuckAt_append (entries entries' : List (CommitId × PageId)) :
    stuckAt floor (entries ++ entries') = stuckAt floor entries + stuckAt floor entries' :=
  countP_append

theorem stuckAt_of_max_lt {entries : List (CommitId × PageId)}
    (h : (ChainSummary.of entries).maxCid < floor) : stuckAt floor entries = 0 := by
  refine countP_eq_zero.mpr fun e he hstuck => ?_
  have hle := ChainSummary.le_max he
  have hfloor : floor ≤ e.1 := of_decide_eq_true hstuck
  exact absurd (Nat.le_trans hfloor hle) (Nat.not_le.mpr h)

theorem stuckAt_of_le_min {entries : List (CommitId × PageId)}
    (h : floor ≤ (ChainSummary.of entries).minCid) : stuckAt floor entries = entries.length :=
  countP_eq_length.mpr fun _ he => decide_eq_true (Nat.le_trans h (ChainSummary.min_le he))

theorem satAdd_eq {a b : Nat} (h : a + b ≤ U64_MAX) : satAdd a b = a + b := Nat.min_eq_left h

/-- The loop of `count_at_or_above_floor`.  What it has counted and what is still
    to come make up the whole count, and a summary that settles the rest settles
    it rightly. -/
theorem countAboveFrom_returns (turns : Nat) :
    ∀ {p : Pager} {walk : ChainWalk} {hops total : Nat}, FreeRun p.page head run 0 →
      Summarised run → WalkAt run walk hops → hops ≤ run.length → run.length < turns + hops →
      total + (heldBy (run.drop hops)).length ≤ U64_MAX →
      Returns Pager.Clear (countAboveFrom floor turns walk total) p fun n q =>
        n = total + stuckAt floor (heldBy (run.drop hops)) ∧ p.Quiet q := by
  induction turns with
  | zero =>
    intro p walk hops total _ _ _ hhops hturns _
    omega
  | succ turns ih =>
    intro p walk hops total h hsum hwalk _ hturns hcount
    unfold countAboveFrom
    refine (ChainWalk.advance_returns h hwalk).bind fun r q hr => ?_
    obtain ⟨found, step⟩ := r
    dsimp only at hr
    rcases hr with ⟨hq, ⟨hlen, rfl, -⟩ | ⟨e, hrest, rfl, hstep, hentries, hlast⟩⟩
    · rw [drop_of_length_le hlen]
      exact Returns.pure ⟨rfl, hq⟩
    · have hlt : hops < run.length := by
        have hlen := congrArg List.length hrest
        rw [length_drop, length_cons] at hlen
        omega
      have hpage := hsum.drop hops
      rw [hrest] at hpage hcount ⊢
      have hsummary : step.lastSummary = ChainSummary.of (heldBy (e :: run.drop (hops + 1))) :=
        hlast.trans hpage.1
      have hall : stuckAt floor (heldBy (e :: run.drop (hops + 1)))
          ≤ (heldBy (e :: run.drop (hops + 1))).length := countP_le_length
      dsimp only
      rw [hsummary]
      split_ifs with hnone hfull
      · rw [stuckAt_of_max_lt hnone]
        exact Returns.pure ⟨rfl, hq⟩
      · rw [stuckAt_of_le_min hfull]
        exact Returns.pure ⟨satAdd_eq hcount, hq⟩
      · rw [heldBy_cons, length_append] at hcount
        have hone : stuckAt floor e.2.entries ≤ e.2.entries.length := countP_le_length
        have hadd : satAdd total (step.entries.countP fun e => decide (floor ≤ e.1))
            = total + stuckAt floor e.2.entries := by
          rw [hentries]
          exact satAdd_eq (by unfold stuckAt at hone; omega)
        rw [hadd, heldBy_cons, stuckAt_append]
        rw [← hq.page] at h
        refine (ih h hsum hstep hlt (by omega) (by omega)).weaken fun n q' hn => ?_
        exact ⟨by omega, hq.trans hn.2⟩

/-- **The early exits change nothing**: the walk counts every entry of the chain
    at or above the floor. -/
theorem countAtOrAboveFloor_returns (h : FreeRun p.page head run 0) (hsum : Summarised run)
    (hcount : (heldBy run).length ≤ U64_MAX) (floor : CommitId) :
    Returns Pager.Clear (countAtOrAboveFloor head floor) p fun n q =>
      n = stuckAt floor (heldBy run) ∧ p.Quiet q := by
  unfold countAtOrAboveFloor
  refine Returns.get ?_
  have hlen := h.length_le h.nodup
  refine (countAboveFrom_returns (p.pageCount + 2) h hsum (WalkAt.new h) (Nat.zero_le _) (by omega)
    ?_).weaken fun n q hn => ?_
  · rw [drop_zero]
    omega
  · rw [drop_zero] at hn
    exact ⟨by omega, hn.2⟩

theorem countChain_returns (h : FreeRun p.page head run 0) (hsum : Summarised run) :
    Returns Pager.Clear (countChain head) p fun n q => n = (heldBy run).length ∧ p.Quiet q := by
  unfold countChain
  refine (readChainSummary_returns h hsum).bind fun s q hs => ?_
  obtain ⟨rfl, hq⟩ := hs
  exact Returns.pure ⟨rfl, hq⟩

end Count

/-- The chains that rewrites build: from no chain, by rewrites of a window of any
    size, while other pages of the file change in between. -/
inductive ChainBuilt (pageSize : Nat) : Pager → PageId → Prop where
  | empty (p : Pager) : ChainBuilt pageSize p 0
  | rewritten {p q r : Pager} {head head' next next' : PageId} {maxPages : Nat}
      {window : ChainPrefix} {entries : List (CommitId × PageId)} {hosts : List PageId}
      {run : List (PageId × FreePage)} (built : ChainBuilt pageSize p head)
      (chain : FreeRun p.page head run 0)
      (read : readChainPrefix head maxPages p = .ok window q)
      (allowed : Rewritable (run.drop maxPages) entries hosts next)
      (rewrite : rewriteChain pageSize entries hosts next window.tail q = .ok (head', next') r) :
      ChainBuilt pageSize r head'
  | others {p q : Pager} {head : PageId} {run : List (PageId × FreePage)}
      (built : ChainBuilt pageSize p head) (chain : FreeRun p.page head run 0)
      (same : ∀ e ∈ run, q.page e.1 = p.page e.1) : ChainBuilt pageSize q head

/-- **A chain that rewrites built ends, and its summaries are true.** -/
theorem ChainBuilt.summarised {pageSize : Nat} (hcap : 0 < chainCapacity pageSize) {p : Pager}
    {head : PageId} (h : ChainBuilt pageSize p head) :
    ∃ run, FreeRun p.page head run 0 ∧ Summarised run ∧ (heldBy run).length ≤ U64_MAX := by
  induction h with
  | empty p => exact ⟨[], rfl, trivial, Nat.zero_le _⟩
  | @rewritten p q r head head' next next' maxPages window entries hosts run _ chain read allowed
      rewrite ih =>
      obtain ⟨run', hrun, hsum, -⟩ := ih
      obtain rfl := hrun.unique chain
      obtain ⟨hq, rfl⟩ := (readChainPrefix_returns hrun hsum maxPages).sound _ _ read
      have htail := hrun.drop maxPages
      rw [← hq.page] at htail
      obtain ⟨used, bumped, fresh, -, -, -, hwritten⟩ :=
        (rewriteChain_returns hcap allowed htail (hsum.drop maxPages) rfl).sound _ _ rewrite
      refine ⟨fresh ++ run'.drop maxPages, hwritten.chain, hwritten.summarised, ?_⟩
      rw [heldBy_append, hwritten.held, length_append]
      have hfew := length_filter_le (fun e : CommitId × PageId => !used.contains e.2) entries
      have := allowed.counted
      omega
  | others _ chain same ih =>
    obtain ⟨run', hrun, hsum, hcount⟩ := ih
    obtain rfl := hrun.unique chain
    exact ⟨run', hrun.congr same, hsum, hcount⟩

/-- **The stall count is exact.**  On every chain that rewrites built, and for
    every floor, `count_at_or_above_floor` returns how many of the entries
    `read_chain` returns have a tag at or above the floor, and `count_chain` how
    many there are. -/
theorem stall_count_is_exact {pageSize : Nat} (hcap : 0 < chainCapacity pageSize) {p : Pager}
    {head : PageId} (h : ChainBuilt pageSize p head) :
    ∃ entries, (∃ pages, Returns Pager.Clear (readFreeChain head) p fun r _ => r = (entries, pages))
      ∧ (∀ floor, Returns Pager.Clear (countAtOrAboveFloor head floor) p fun n _ =>
        n = entries.countP fun e => decide (floor ≤ e.1))
      ∧ Returns Pager.Clear (countChain head) p fun n _ => n = entries.length := by
  obtain ⟨run, hrun, hsum, hcount⟩ := h.summarised hcap
  refine ⟨heldBy run, ⟨run.map Prod.fst, ?_⟩, fun floor => ?_, ?_⟩
  · exact (readFreeChain_returns hrun hsum).weaken fun r _ hr => hr.1
  · exact (countAtOrAboveFloor_returns hrun hsum hcount floor).weaken fun n _ hn => hn.1
  · exact (countChain_returns hrun hsum).weaken fun n _ hn => hn.1

/-- Two rewrites, whose tags are in no order: page 5 hosts the first chain, and page 9
    the pages in front of it. -/
theorem stall_count_is_exact_twice :
    ∃ p : Pager, ChainBuilt 4096 p 9
      ∧ ∃ entries, (∃ pages, Returns Pager.Clear (readFreeChain 9) p fun r _ => r = (entries, pages))
        ∧ (∀ floor, Returns Pager.Clear (countAtOrAboveFloor 9 floor) p fun n _ =>
          n = entries.countP fun e => decide (floor ≤ e.1))
        ∧ Returns Pager.Clear (countChain 9) p fun n _ => n = entries.length := by
  have hfirst : Rewritable [] [(3, 5), (2, 6), (4, 7)] [5] 8 := by
    constructor <;> decide
  have hsecond : Rewritable [(5, ⟨0, [(2, 6), (4, 7)], 2, 4, 2⟩)] [(5, 9), (6, 10), (1, 11)] [9] 12 := by
    constructor <;> decide
  have hread : readChainPrefix 0 0 ⟨[], [], [], []⟩
    = .ok ⟨[], [], ⟨0, ChainSummary.empty⟩⟩ ⟨[], [], [], []⟩ := rfl
  have hbuilt : ChainBuilt 4096 ⟨[], [(5, .free ⟨0, [(2, 6), (4, 7)], 2, 4, 2⟩)], [5], []⟩ 5 :=
    .rewritten (.empty _) (show FreeRun _ 0 [] 0 from rfl) hread hfirst rfl
  have hread' : readChainPrefix 5 0 ⟨[], [(5, .free ⟨0, [(2, 6), (4, 7)], 2, 4, 2⟩)], [5], []⟩
    = .ok ⟨[], [], ⟨5, ⟨2, 4, 2⟩⟩⟩ _ := rfl
  have hrun : FreeRun (fun id => Pager.page ⟨[], [(5, .free ⟨0, [(2, 6), (4, 7)], 2, 4, 2⟩)], [5], []⟩ id)
    5 [(5, ⟨0, [(2, 6), (4, 7)], 2, 4, 2⟩)] 0 := ⟨rfl, by decide, rfl, rfl⟩
  have hbuilt' : ChainBuilt 4096 _ 9 := .rewritten hbuilt hrun hread' hsecond rfl
  exact ⟨_, hbuilt', stall_count_is_exact (by decide) hbuilt'⟩

end Pagedb
