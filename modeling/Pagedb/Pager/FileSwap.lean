/-
  Pagedb.Pager.FileSwap — a new image renamed over main.db while reads run
  (`pager/core/handles.rs`, `pager/core/read.rs`, `Pager::reset_main_pages`).

  The swap closes the cached handle, renames the image, closes again and drops
  the unpinned pages.  Beside it any number of read misses load the handle
  generation, take or open a handle, read, and enter the page into the cache if
  the generation has not moved.  A step is one critical section or one file
  call.  Which image a handle or a page comes from is ghost state.

  Main result: `swap_leaves_nothing_stale`.
-/
import Pagedb.Basic
import Pagedb.Lib.Run

namespace Pagedb.FileSwap

open Lib List

/-! ## §1. Readers beside the swap -/

/-- The two files that `main.db` names in turn. -/
inductive Image where
  | replaced
  | fresh
  deriving DecidableEq, Repr

/-- Where a `read_page` call stands.  `generation` is loaded before the handle is
    taken, and `opens` by `open_file_handle` before its open. -/
inductive Reader where
  | idle
  | missed (page : PageId)
  | started (page : PageId) (generation : Nat)
  | opening (page : PageId) (generation opens : Nat)
  | opened (page : PageId) (generation opens : Nat) (handle : Image)
  | holding (page : PageId) (generation : Nat) (handle : Image)
  | fetched (page : PageId) (generation : Nat) (source : Image)
  /-- The cache lock is held, and the generation had not moved. -/
  | admitted (page : PageId) (generation : Nat) (source : Image)
  deriving DecidableEq, Repr

/-- A main.db entry of the page cache. -/
structure Entry where
  page : PageId
  source : Image
  pins : Nat
  deriving DecidableEq, Repr

/-- The pager as reads and the swap share it. -/
structure State where
  /-- The file under the path of main.db. -/
  current : Image
  handleGeneration : Nat
  /-- The entry of `files` for main.db. -/
  handle : Option Image
  cache : List Entry
  /-- The reader inside the cache lock. -/
  cacheLock : Option Nat
  readers : Nat → Reader
  /-- How many of its four steps the swap has taken. -/
  swapSteps : Nat

variable {s : State} {r : Nat} {pc : Reader}

def State.set (s : State) (r : Nat) (pc : Reader) : State :=
  { s with readers := Function.update s.readers r pc }

def pin (cache : List Entry) (page : PageId) : List Entry :=
  cache.map fun x => if x.page = page then { x with pins := x.pins + 1 } else x

/-- `insert_and_pin`: a resident page wins. -/
def insertAndPin (cache : List Entry) (page : PageId) (source : Image) : List Entry :=
  if cache.any (·.page == page) then pin cache page else ⟨page, source, 1⟩ :: cache

/-- The next step of a miss. -/
def State.advance (s : State) (r : Nat) : State :=
  match s.readers r with
  | .idle => s
  | .missed page => s.set r (.started page s.handleGeneration)
  | .started page generation =>
    match s.handle with
    | some handle => s.set r (.holding page generation handle)
    | none => s.set r (.opening page generation s.handleGeneration)
  | .opening page generation opens => s.set r (.opened page generation opens s.current)
  | .opened page generation opens handle =>
    -- an open that overlapped a close is thrown away and runs again
    if s.handleGeneration ≠ opens then s.set r (.started page generation)
    else
      match s.handle with
      | some cached => s.set r (.holding page generation cached)
      | none => { s with handle := some handle }.set r (.holding page generation handle)
  | .holding page generation handle => s.set r (.fetched page generation handle)
  | .fetched page generation source =>
    if s.cacheLock.isSome then s
    else if s.handleGeneration ≠ generation then s.set r .idle
    else { s with cacheLock := some r }.set r (.admitted page generation source)
  | .admitted page _ source =>
    { s with cache := insertAndPin s.cache page source, cacheLock := none }.set r .idle

/-- `close_main_handle`. -/
def State.closeMainHandle (s : State) : State :=
  { s with handleGeneration := s.handleGeneration + 1, handle := none }

/-- The next step of the swap: close, rename, close, `reset_main_pages`. -/
def State.swap (s : State) : State :=
  match s.swapSteps with
  | 0 | 2 => { s.closeMainHandle with swapSteps := s.swapSteps + 1 }
  | 1 => { s with current := .fresh, swapSteps := 2 }
  | 3 =>
    if s.cacheLock.isSome then s
    else { s with cache := s.cache.filter (0 < ·.pins), swapSteps := 4 }
  | _ => s

inductive Event where
  /-- A `read_page` call enters: a hit pins its entry, a miss starts. -/
  | read (r : Nat) (page : PageId)
  | advance (r : Nat)
  /-- A call ends with an error or is dropped. -/
  | fail (r : Nat)
  | unpin (page : PageId)
  | evict (page : PageId)
  | swap
  deriving DecidableEq, Repr

def State.step (s : State) : Event → State
  | .read r page =>
    if s.cacheLock.isSome ∨ s.readers r ≠ .idle then s
    else if s.cache.any (·.page == page) then { s with cache := pin s.cache page }
    else s.set r (.missed page)
  | .advance r => s.advance r
  | .fail r =>
    { s with cacheLock := if s.cacheLock = some r then none else s.cacheLock }.set r .idle
  | .unpin page =>
    if s.cacheLock.isSome then s
    else { s with cache := s.cache.map fun x =>
      if x.page = page then { x with pins := x.pins - 1 } else x }
  | .evict page =>
    if s.cacheLock.isSome then s
    else { s with cache := s.cache.filter fun x => x.page ≠ page ∨ 0 < x.pins }
  | .swap => s.swap

/-! ## §2. What a generation vouches for -/

/-- Once the second close is done, an image taken under the present generation is
    the new one. -/
def State.Vouches (s : State) (generation : Nat) (image : Image) : Prop :=
  generation ≤ s.handleGeneration ∧
    (3 ≤ s.swapSteps → generation = s.handleGeneration → image = .fresh)

def Reader.Sound (s : State) (r : Nat) : Reader → Prop
  | .idle => True
  | .missed _ => True
  | .started _ generation => generation ≤ s.handleGeneration
  | .opening _ generation opens =>
    generation ≤ s.handleGeneration ∧ opens ≤ s.handleGeneration
  | .opened _ generation opens handle =>
    generation ≤ s.handleGeneration ∧ s.Vouches opens handle
  | .holding _ generation image => s.Vouches generation image
  | .fetched _ generation image => s.Vouches generation image
  | .admitted _ generation image => s.cacheLock = some r ∧ s.Vouches generation image
    ∧ (s.swapSteps = 4 → generation = s.handleGeneration)

structure Inv (s : State) : Prop where
  current : 2 ≤ s.swapSteps → s.current = .fresh
  handle : 3 ≤ s.swapSteps → ∀ image, s.handle = some image → image = .fresh
  cache : s.swapSteps = 4 → ∀ x ∈ s.cache, x.source = .fresh
  readers : ∀ r, (s.readers r).Sound s r

theorem Reader.Sound.mono {t : State} (h : pc.Sound s r)
    (hgen : s.handleGeneration ≤ t.handleGeneration)
    (hvouch : ∀ generation image, s.Vouches generation image → t.Vouches generation image)
    (hlock : s.cacheLock = some r → t.cacheLock = some r
      ∧ (t.swapSteps = 4 → s.swapSteps = 4 ∧ t.handleGeneration = s.handleGeneration)) :
    pc.Sound t r := by
  cases pc with
  | idle => trivial
  | missed => trivial
  | started => exact Nat.le_trans h hgen
  | opening => exact ⟨Nat.le_trans h.1 hgen, Nat.le_trans h.2 hgen⟩
  | opened => exact ⟨Nat.le_trans h.1 hgen, hvouch _ _ h.2⟩
  | holding => exact hvouch _ _ h
  | fetched => exact hvouch _ _ h
  | admitted =>
    obtain ⟨hheld, hlast⟩ := hlock h.1
    refine ⟨hheld, hvouch _ _ h.2.1, fun hsteps => ?_⟩
    rw [(hlast hsteps).2]
    exact h.2.2 (hlast hsteps).1

/-- A step of reader `r` leaves the swap and the generation alone, and takes the
    cache lock from no other reader. -/
theorem Inv.move {t : State} (h : Inv s) (hreaders : t.readers = s.readers)
    (hshared : t.current = s.current ∧ t.handleGeneration = s.handleGeneration
      ∧ t.swapSteps = s.swapSteps)
    (hhandle : 3 ≤ s.swapSteps → ∀ image, t.handle = some image → image = .fresh)
    (hcache : s.swapSteps = 4 → ∀ x ∈ t.cache, x.source = .fresh)
    (hlock : ∀ r' ≠ r, s.cacheLock = some r' → t.cacheLock = some r') (hpc : pc.Sound t r) :
    Inv (t.set r pc) := by
  obtain ⟨hcurrent, hgen, hsteps⟩ := hshared
  refine ⟨?_, hsteps ▸ hhandle, hsteps ▸ hcache, fun r' => ?_⟩
  · show 2 ≤ t.swapSteps → t.current = .fresh
    rw [hsteps, hcurrent]
    exact h.current
  · show (Function.update t.readers r pc r').Sound t r'
    by_cases hr : r' = r
    · subst hr; rw [Function.update_self]; exact hpc
    · rw [Function.update_of_ne hr, hreaders]
      refine (h.readers r').mono hgen.ge (fun _ _ hv => ?_) fun hl => ⟨hlock r' hr hl, ?_⟩
      · unfold State.Vouches
        rw [hgen, hsteps]
        exact hv
      · exact fun h4 => ⟨hsteps ▸ h4, hgen⟩

theorem Inv.set (h : Inv s) (hpc : pc.Sound s r) : Inv (s.set r pc) :=
  h.move rfl ⟨rfl, rfl, rfl⟩ h.handle h.cache (fun _ _ hl => hl) hpc

theorem insertAndPin_source {cache : List Entry} {page : PageId} {source : Image}
    (hcache : ∀ x ∈ cache, x.source = .fresh) (hsource : source = .fresh) :
    ∀ x ∈ insertAndPin cache page source, x.source = .fresh := by
  unfold insertAndPin pin
  grind

/-! ## §3. The steps -/

theorem Inv.advance (h : Inv s) : Inv (s.advance r) := by
  have hr := h.readers r
  unfold State.advance
  cases hpc : s.readers r <;> rw [hpc] at hr <;> dsimp only
  case idle => exact h
  case missed => exact h.set (Nat.le_refl _)
  case started page generation =>
    cases hhandle : s.handle with
    | some image => exact h.set ⟨hr, fun hsteps _ => h.handle hsteps image hhandle⟩
    | none => exact h.set ⟨hr, Nat.le_refl _⟩
  case opening => exact h.set ⟨hr.1, hr.2, fun hsteps _ => h.current (by omega)⟩
  case opened page generation opens image =>
    split_ifs with hgen
    · exact h.set hr.1
    · have hfresh : 3 ≤ s.swapSteps → image = .fresh :=
        fun hsteps => hr.2.2 hsteps (not_not.mp hgen).symm
      cases hhandle : s.handle with
      | some cached => exact h.set ⟨hr.1, fun hsteps _ => h.handle hsteps cached hhandle⟩
      | none =>
        exact h.move rfl ⟨rfl, rfl, rfl⟩ (fun hsteps _ hi => Option.some.inj hi ▸ hfresh hsteps)
          h.cache (fun _ _ hl => hl) ⟨hr.1, fun hsteps _ => hfresh hsteps⟩
  case holding => exact h.set hr
  case fetched page generation source =>
    split_ifs with hlock hgen
    · exact h
    · exact h.set trivial
    · refine h.move rfl ⟨rfl, rfl, rfl⟩ h.handle h.cache (fun r' _ hl => ?_)
        ⟨rfl, hr, fun _ => (not_not.mp hgen).symm⟩
      rw [hl] at hlock
      exact absurd rfl hlock
  case admitted page generation source =>
    obtain ⟨hlock, hvouch, hlast⟩ := hr
    refine h.move rfl ⟨rfl, rfl, rfl⟩ h.handle (fun hsteps => ?_) (fun r' hne hl => ?_) trivial
    · exact insertAndPin_source (h.cache hsteps) (hvouch.2 (by omega) (hlast hsteps))
    · rw [hlock] at hl
      exact absurd (Option.some.inj hl).symm hne

/-- A close: every generation loaded so far is out of date. -/
theorem Inv.close {n : Nat} (h : Inv s) (hn : n ≤ 3)
    (hcurrent : 2 ≤ n → s.current = .fresh) : Inv { s.closeMainHandle with swapSteps := n } := by
  have hnot : n ≠ 4 := by omega
  refine ⟨hcurrent, fun _ _ hi => (nomatch hi), fun h4 => absurd h4 hnot, fun r => ?_⟩
  refine (h.readers r).mono (Nat.le_succ _) (fun generation image hv => ?_)
    fun hl => ⟨hl, fun h4 => absurd h4 hnot⟩
  have hle : generation ≤ s.handleGeneration := hv.1
  refine ⟨Nat.le_succ_of_le hle, fun _ heq => ?_⟩
  have heq : generation = s.handleGeneration + 1 := heq
  omega

theorem Inv.swap (h : Inv s) (hcalm : s.swapSteps = 3 → ∀ x ∈ s.cache, x.pins = 0) :
    Inv s.swap := by
  unfold State.swap
  split
  case h_1 hsteps => exact h.close (by omega) (by omega)
  case h_2 hsteps => exact h.close (by omega) fun _ => h.current (by omega)
  case h_3 hsteps =>
    refine ⟨fun _ => rfl, by simp, by simp, fun r => ?_⟩
    exact (h.readers r).mono (Nat.le_refl _) (fun _ _ hv => ⟨hv.1, by simp⟩) fun hl => ⟨hl, by simp⟩
  case h_4 hsteps =>
    split_ifs with hlock
    · exact h
    · -- nobody is inside the cache lock, and every page goes
      refine ⟨fun _ => h.current (by omega), fun _ => h.handle (by omega), fun _ x hx => ?_,
        fun r => ?_⟩
      · obtain ⟨hx, hpins⟩ := mem_filter.mp hx
        rw [hcalm hsteps x hx] at hpins
        cases hpins
      · refine (h.readers r).mono (Nat.le_refl _) (fun _ _ hv => ⟨hv.1, fun _ => hv.2 (by omega)⟩)
          fun hl => ?_
        rw [hl] at hlock
        exact absurd rfl hlock
  case h_5 => exact h

/-- The condition on a step: no entry is pinned when the pages are reset. -/
def Calm (s : State) : Event → Prop
  | .swap => s.swapSteps = 3 → ∀ x ∈ s.cache, x.pins = 0
  | _ => True

theorem Inv.step (e : Event) (h : Inv s) (hcalm : Calm s e) : Inv (s.step e) := by
  -- a change of pins or an eviction keeps where the pages come from
  have hpages : ∀ cache, (∀ y ∈ cache, ∃ x ∈ s.cache, y.source = x.source) →
      Inv { s with cache := cache } := by
    intro cache hsub
    refine ⟨h.current, h.handle, fun hsteps y hy => ?_, h.readers⟩
    obtain ⟨x, hx, hyx⟩ := hsub y hy
    rw [hyx]
    exact h.cache hsteps x hx
  cases e <;> unfold State.step <;> dsimp only
  case read r page =>
    split_ifs
    · exact h
    · refine hpages _ fun y hy => ?_
      unfold pin at hy
      grind
    · exact h.set trivial
  case advance r => exact h.advance
  case fail r =>
    refine h.move rfl ⟨rfl, rfl, rfl⟩ h.handle h.cache (fun r' hne hl => ?_) trivial
    rw [hl, if_neg fun he => hne (Option.some.inj he)]
  case unpin page =>
    split_ifs
    · exact h
    · exact hpages _ fun y hy => by grind
  case evict page =>
    split_ifs
    · exact h
    · exact hpages _ fun y hy => ⟨y, (mem_filter.mp hy).1, rfl⟩
  case swap => exact h.swap hcalm

/-- A store with no read under way, before its swap. -/
structure State.Start (s : State) : Prop where
  swapSteps : s.swapSteps = 0
  readers : ∀ r, s.readers r = .idle

/-- **A swap leaves nothing stale.**  Whatever reads run beside it, if no entry is
    pinned when the pages are reset, every page cached from there on was read from
    the new image, and a cached handle is bound to it. -/
theorem swap_leaves_nothing_stale (s : State) (hs : s.Start) (es : List Event)
    (hcalm : Meets State.step Calm s es) (hreset : (run State.step s es).swapSteps = 4) :
    (∀ x ∈ (run State.step s es).cache, x.source = .fresh)
      ∧ ∀ image, (run State.step s es).handle = some image → image = .fresh := by
  have hsteps := hs.swapSteps
  have hstart : Inv s :=
    ⟨by omega, by omega, by omega, fun r => by rw [hs.readers r]; trivial⟩
  have h := run_invariant_of_meets (fun _ e h hc => Inv.step e h hc) es s hstart hcalm
  exact ⟨h.cache hreset, h.handle (hreset ▸ by decide)⟩

/-- A read that took its handle before the swap ends uncached, and one that starts
    after it enters the new page. -/
theorem swap_leaves_nothing_stale_beside_reads :
    let s : State := ⟨.replaced, 7, some .replaced, [⟨4, .replaced, 0⟩], none, fun _ => .idle, 0⟩
    let es : List Event := [.read 0 5, .advance 0, .advance 0, .swap, .swap, .swap, .advance 0,
      .swap, .advance 0] ++ .read 1 6 :: replicate 7 (.advance 1)
    (run State.step s es).cache = [⟨6, .fresh, 1⟩] ∧ (run State.step s es).handle = some .fresh
      ∧ ∀ x ∈ (run State.step s es).cache, x.source = .fresh := by
  refine ⟨rfl, rfl, (swap_leaves_nothing_stale _ ⟨rfl, fun _ => rfl⟩ _ ?_ rfl).1⟩
  exact ⟨trivial, trivial, trivial, nofun, nofun, nofun, trivial, fun _ => by decide, trivial,
    trivial, trivial, trivial, trivial, trivial, trivial, trivial, trivial, trivial⟩

end Pagedb.FileSwap
