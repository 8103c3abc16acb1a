/-
  Pagedb.Pager.HeaderRun — one store through opens, flushes, anchor refreshes,
  commits and crashes (`pager/core/header_binding.rs`, the nonce allocation of
  `pager/core/flush.rs`, the header half of `txn/write/commit.rs`).

  A crash is the end of the event list before the next `openExisting`; a crash
  inside a header write is that write with an unknown outcome followed by an
  open, and a crash inside a flush is a flush of fewer pages followed by one.

  Main results, for every event list from a created store:
    * `open_selects_last_or_attempted` — an open selects the header of the last
      write that reported success (or that the previous open adopted), or one
      of the writes attempted since, all of which target the other slot with
      the same sequence; and it resumes above both slots;
    * `issued_counters_unique` — no counter is issued twice, and every open
      starts above all of them.
-/
import Pagedb.Lib.Run
import Pagedb.Crypto.Nonce
import Pagedb.Pager.Header

namespace Pagedb

open Lib List

/-! ## §1. The store's header state -/

/-- The header side of a store and its handle.  The last three fields are
    history variables: no modelled function reads them. -/
structure HeaderStore where
  file : HeaderFile
  fileId : Bytes
  cursor : HeaderCursor
  nonceGen : MainDbNonceGen
  poisoned : Bool
  /-- The header of the last write that reported success, or that an open
      adopted, whichever is later. -/
  last : MainDbHeaderFields
  /-- The headers of the writes attempted since, in order. -/
  attempted : List MainDbHeaderFields
  /-- Every nonce issued over the life of the store, in order. -/
  issued : List Nonce

/-- What can happen to the store.  The outcomes a flush takes are those of the
    anchor refreshes it runs, in order. -/
inductive HeaderEvent where
  | openExisting (budget : Nat)
  | flush (pages : Nat) (outcomes : List WriteOutcome)
  | refresh (outcome : WriteOutcome)
  /-- The header half of a commit.  `published` is false when the future ends
      between the durable header and `commit_anchor`. -/
  | commit (payload : MainDbHeaderFields) (outcome : WriteOutcome) (published : Bool)

/-- A created store: slot A holds the initial header, slot B is a zero page. -/
def HeaderStore.create (fileId : Bytes) (initial : MainDbHeaderFields) (budget : Nat) :
    HeaderStore :=
  let fields := { initial with seq := 1, counterAnchor := 0 }
  { file := ⟨some fields, none⟩
    fileId := fileId
    cursor := ⟨.A, 1⟩
    nonceGen := MainDbNonceGen.new fileId budget
    poisoned := false
    last := fields
    attempted := []
    issued := [] }

/-- `Pager::refresh_main_anchor`.  The flag says whether it returned `Ok`. -/
def HeaderStore.refreshMainAnchor (s : HeaderStore) (o : WriteOutcome) : Bool × HeaderStore :=
  let anchor := s.nonceGen.pendingAnchor
  match refreshAnchor s.file s.cursor anchor o with
  | (file, some fields, some next) =>
    -- only now is the anchor durable, so only now may the generator pass it
    match s.nonceGen.commitAnchor anchor with
    | .ok g =>
      (true, { s with file := file, nonceGen := g, cursor := next, last := fields, attempted := [] })
    | .error _ => (false, { s with file := file, attempted := s.attempted ++ [fields] })
  | (file, some fields, none) =>
    (false, { s with file := file, attempted := s.attempted ++ [fields] })
  | (file, none, _) => (false, { s with file := file })

/-- The inner loop of the allocation: `count` calls of `next_nonce`, stopped by
    the first refusal. -/
def HeaderStore.issueMany : Nat → HeaderStore → Bool × HeaderStore
  | 0, s => (true, s)
  | count + 1, s =>
    match s.nonceGen.nextNonce with
    | .error _ => (false, s)
    | .ok (n, g) => issueMany count { s with nonceGen := g, issued := s.issued ++ [n] }

/-- The nonce allocation of `flush_file` for main.db: refresh the anchor when
    the window cannot cover what is still needed, then issue what the window
    covers, and at least one.  Every turn issues at least one nonce or returns,
    so `pages` turns are enough. -/
def HeaderStore.flushNonces : Nat → Nat → List WriteOutcome → HeaderStore → Bool × HeaderStore
  | 0, stillNeeded, _, s => (stillNeeded == 0, s)
  | turns + 1, stillNeeded, outcomes, s =>
    if stillNeeded = 0 then (true, s)
    else if s.nonceGen.windowRemaining < stillNeeded then
      match s.refreshMainAnchor (outcomes.headD .ok) with
      | (false, s) => (false, s)
      | (true, s) =>
        let count := max (min s.nonceGen.windowRemaining stillNeeded) 1
        match issueMany count s with
        | (false, s) => (false, s)
        | (true, s) => flushNonces turns (stillNeeded - count) outcomes.tail s
    else
      let count := max (min s.nonceGen.windowRemaining stillNeeded) 1
      match issueMany count s with
      | (false, s) => (false, s)
      | (true, s) => flushNonces turns (stillNeeded - count) outcomes s

/-- The header write of a commit: the cursor is read after the flush, the
    handle is poisoned when the outcome is unknown, and the generator hears of
    the anchor only at publication. -/
def HeaderStore.commitPath (s : HeaderStore) (payload : MainDbHeaderFields) (o : WriteOutcome)
    (published : Bool) : HeaderStore :=
  match s.cursor.nextSeq with
  | none => s
  | some seq =>
    let fields := { payload with seq := seq, counterAnchor := s.nonceGen.pendingAnchor }
    match commitHeader s.file fields s.cursor.slot o with
    | (file, .ok slot) =>
      let s := { s with file := file, cursor := ⟨slot, seq⟩, last := fields, attempted := [] }
      match published, s.nonceGen.commitAnchor fields.counterAnchor with
      | true, .ok g => { s with nonceGen := g }
      | _, _ => { s with poisoned := true }
    | (file, .error .notStarted) =>
      { s with file := file, attempted := s.attempted ++ [fields] }
    | (file, .error .outcomeUnknown) =>
      { s with file := file, attempted := s.attempted ++ [fields], poisoned := true }

/-- The header half of `open_existing`: adopt the selected slot and recover the
    generator from its anchor. -/
def HeaderStore.openExisting (s : HeaderStore) (budget : Nat) : HeaderStore :=
  match selectHeader s.file with
  | none => s
  | some (fields, slot) =>
    { s with
      cursor := ⟨slot, fields.seq⟩
      nonceGen := MainDbNonceGen.recover s.fileId fields.counterAnchor budget
      poisoned := false
      last := fields
      attempted := [] }

/-- One event.  A poisoned handle refuses every writer path until a reopen. -/
def HeaderStore.step (s : HeaderStore) : HeaderEvent → HeaderStore
  | .openExisting budget => s.openExisting budget
  | .flush pages outcomes => if s.poisoned then s else (s.flushNonces pages pages outcomes).2
  | .refresh o => if s.poisoned then s else (s.refreshMainAnchor o).2
  | .commit payload o published => if s.poisoned then s else s.commitPath payload o published

/-! ## §2. The slot invariant -/

/-- `f` is `last` rewritten by an anchor refresh: it names the same state. -/
def AnchorOnly (last f : MainDbHeaderFields) : Prop :=
  f = { last with seq := f.seq, counterAnchor := f.counterAnchor }

/-- The cursor's slot holds the last header.  The other slot holds nothing newer
    than it except a write attempted since, and that one is an anchor refresh
    unless it is the very last write, whose unknown outcome poisoned the handle. -/
structure SlotInv (s : HeaderStore) : Prop where
  live : s.file.slot s.cursor.slot = some s.last
  live_seq : s.last.seq = s.cursor.seq
  attempted_seq : ∀ f ∈ s.attempted, f.seq = s.cursor.seq + 1
  other : ∀ f, s.file.slot s.cursor.slot.other = some f → f.seq < s.cursor.seq ∨ f ∈ s.attempted
      ∧ (AnchorOnly s.last f ∨ s.poisoned = true ∧ s.attempted.getLast? = some f)

theorem slotInv_create (fileId : Bytes) (initial : MainDbHeaderFields) (budget : Nat) :
    SlotInv (HeaderStore.create fileId initial budget) where
  live := rfl
  live_seq := rfl
  attempted_seq := by intro f hf; cases hf
  other := by intro f hf; cases hf

variable {s : HeaderStore} {fields : MainDbHeaderFields}

/-- A header write that did not advance the cursor: an anchor refresh, a write
    whose unknown outcome poisons the handle, or one that never started. -/
theorem SlotInv.attempt (h : SlotInv s) (hp : s.poisoned = false)
    (hseq : fields.seq = s.cursor.seq + 1) {file : HeaderFile}
    {r : Except HeaderWriteError ActiveSlot} {o : WriteOutcome}
    (hw : commitHeader s.file fields s.cursor.slot o = (file, r)) {p : Bool}
    (hkind : AnchorOnly s.last fields ∨ p = true ∨ file = s.file) :
    SlotInv { s with file := file, attempted := s.attempted ++ [fields], poisoned := p } := by
  obtain ⟨hlive, hother⟩ := commitHeader_slots hw
  -- what the other slot held before is an older header or an anchor refresh
  have hold : ∀ f, s.file.slot s.cursor.slot.other = some f →
      f.seq < s.cursor.seq ∨ f ∈ s.attempted ++ [fields] ∧ AnchorOnly s.last f := by
    intro f hf
    rcases h.other f hf with hlt | ⟨hmem, ha | ⟨hpois, -⟩⟩
    · exact .inl hlt
    · exact .inr ⟨mem_append_left _ hmem, ha⟩
    · rw [hp] at hpois; cases hpois
  refine ⟨hlive.trans h.live, h.live_seq, ?_, ?_⟩
  · intro f hf
    rcases mem_append.mp hf with hf | hf
    · exact h.attempted_seq f hf
    · rw [mem_singleton.mp hf]; exact hseq
  · intro f hf
    have hcase : s.file.slot s.cursor.slot.other = some f
        ∨ f = fields ∧ (AnchorOnly s.last fields ∨ p = true) := by
      rcases hkind with ha | hpt | hfile
      · exact (hother f hf).imp id fun he => ⟨he, .inl ha⟩
      · exact (hother f hf).imp id fun he => ⟨he, .inr hpt⟩
      · subst hfile; exact .inl hf
    rcases hcase with hf | ⟨rfl, ha | hpt⟩
    · exact (hold f hf).imp id fun hm => ⟨hm.1, .inl hm.2⟩
    · exact .inr ⟨by simp, .inl ha⟩
    · exact .inr ⟨by simp, .inr ⟨hpt, by simp⟩⟩

/-- A successful write moves the cursor to the slot it wrote; the slot left
    behind carries the sequence before it. -/
theorem SlotInv.ok_write (h : SlotInv s) (hseq : fields.seq = s.cursor.seq + 1) {file : HeaderFile}
    {slot : ActiveSlot} {o : WriteOutcome}
    (hw : commitHeader s.file fields s.cursor.slot o = (file, .ok slot)) (g : MainDbNonceGen)
    (p : Bool) :
    SlotInv { s with file := file, nonceGen := g, poisoned := p,
                     cursor := ⟨slot, fields.seq⟩, last := fields, attempted := [] } := by
  obtain ⟨rfl, rfl⟩ := commitHeader_eq_ok hw
  constructor
  · simp
  · rfl
  · intro f hf; cases hf
  · intro f hf
    left
    simp only [ActiveSlot.other_other, HeaderFile.slot_setSlot_other, h.live] at hf
    cases hf
    have hlive := h.live_seq
    show s.last.seq < fields.seq
    omega

theorem SlotInv.issue (h : SlotInv s) (g : MainDbNonceGen) (is : List Nonce) :
    SlotInv { s with nonceGen := g, issued := is } :=
  ⟨h.live, h.live_seq, h.attempted_seq, h.other⟩

/-- **Selection under the slot invariant.**  An open takes the last header from
    the cursor's slot, or a write attempted since from the other one. -/
theorem SlotInv.select (h : SlotInv s) : selectHeader s.file = some (s.last, s.cursor.slot)
      ∧ (∀ g, s.file.slot s.cursor.slot.other = some g → g.seq < s.last.seq)
    ∨ ∃ g ∈ s.attempted, selectHeader s.file = some (g, s.cursor.slot.other)
        ∧ s.file.slot s.cursor.slot.other = some g
        ∧ (AnchorOnly s.last g ∨ s.attempted.getLast? = some g) := by
  have hlive := h.live_seq
  by_cases hother : ∃ g ∈ s.attempted, s.file.slot s.cursor.slot.other = some g
  · right
    obtain ⟨g, hg, hslot⟩ := hother
    have hseq := h.attempted_seq g hg
    refine ⟨g, hg, selectHeader_of_slot hslot ?_, hslot, ?_⟩
    · intro f hf
      rw [ActiveSlot.other_other, h.live] at hf
      cases hf
      omega
    · rcases h.other g hslot with hlt | ⟨-, ha | ⟨-, hl⟩⟩
      · omega
      · exact .inl ha
      · exact .inr hl
  · left
    have hlt : ∀ g, s.file.slot s.cursor.slot.other = some g → g.seq < s.last.seq := by
      intro g hg
      rcases h.other g hg with hlt | ⟨hmem, -⟩
      · omega
      · exact absurd ⟨g, hmem, hg⟩ hother
    exact ⟨selectHeader_of_slot h.live hlt, hlt⟩

/-- An open re-establishes the invariant around the header it adopts. -/
theorem SlotInv.openExisting (h : SlotInv s) (budget : Nat) : SlotInv (s.openExisting budget) := by
  unfold HeaderStore.openExisting
  rcases h.select with ⟨hsel, hlt⟩ | ⟨g, hg, hsel, hslot, -⟩
  · rw [hsel]
    constructor
    · exact h.live
    · rfl
    · intro f hf; cases hf
    · intro f hf; exact .inl (hlt f hf)
  · rw [hsel]
    constructor
    · exact hslot
    · rfl
    · intro f hf; cases hf
    · intro f hf
      left
      simp only [ActiveSlot.other_other, h.live] at hf
      cases hf
      have hseq := h.attempted_seq g hg
      have hlive := h.live_seq
      show s.last.seq < g.seq
      omega

/-! ## §3. The nonce invariant -/

/-- Every issued counter lies below the generator and inside the widest window
    over the durable anchor, and no header a crash can leave in force carries a
    smaller anchor than the one the generator works from. -/
structure NonceInv (s : HeaderStore) : Prop where
  anchor_lt_next : s.nonceGen.durableAnchor < s.nonceGen.next
  next_le : s.nonceGen.next ≤ U64_MAX
  last_anchor : s.nonceGen.durableAnchor ≤ s.last.counterAnchor ∧ s.last.counterAnchor < U64_MAX
  attempted_anchor : ∀ f ∈ s.attempted,
    s.nonceGen.durableAnchor ≤ f.counterAnchor ∧ f.counterAnchor < U64_MAX
  issued_lt : ∀ n ∈ s.issued, n.counter < s.nonceGen.next
  issued_window : ∀ n ∈ s.issued,
    n.counter ≤ s.nonceGen.durableAnchor + MAX_ANCHOR_BUDGET ∧ n.counter ≤ Nonce.COUNTER_MAX
  issued_nodup : (s.issued.map Nonce.counter).Nodup

theorem nonceInv_create (fileId : Bytes) (initial : MainDbHeaderFields) (budget : Nat) :
    NonceInv (HeaderStore.create fileId initial budget) where
  anchor_lt_next := Nat.zero_lt_one
  next_le := by show 1 ≤ U64_MAX; decide
  last_anchor := ⟨Nat.le_refl 0, by show 0 < U64_MAX; decide⟩
  attempted_anchor := by intro f hf; cases hf
  issued_lt := by intro n hn; cases hn
  issued_window := by intro n hn; cases hn
  issued_nodup := nodup_nil

variable (h : NonceInv s)

include h

theorem NonceInv.pendingAnchor_range :
    s.nonceGen.durableAnchor ≤ s.nonceGen.pendingAnchor ∧ s.nonceGen.pendingAnchor < U64_MAX := by
  have h1 := h.anchor_lt_next
  have h2 := h.next_le
  unfold MainDbNonceGen.pendingAnchor
  omega

theorem NonceInv.attempt (ha : fields.counterAnchor = s.nonceGen.pendingAnchor)
    (file : HeaderFile) (p : Bool) :
    NonceInv { s with file := file, attempted := s.attempted ++ [fields], poisoned := p } := by
  refine ⟨h.anchor_lt_next, h.next_le, h.last_anchor, ?_, h.issued_lt, h.issued_window,
    h.issued_nodup⟩
  intro f hf
  rcases mem_append.mp hf with hf | hf
  · exact h.attempted_anchor f hf
  · rw [mem_singleton.mp hf, ha]
    exact h.pendingAnchor_range

theorem NonceInv.ok_write (ha : fields.counterAnchor = s.nonceGen.pendingAnchor)
    (file : HeaderFile) (cursor : HeaderCursor) (p : Bool) :
    NonceInv { s with file := file, cursor := cursor, last := fields, attempted := [],
                      poisoned := p } := by
  refine ⟨h.anchor_lt_next, h.next_le, ?_, ?_, h.issued_lt, h.issued_window, h.issued_nodup⟩
  · rw [ha]; exact h.pendingAnchor_range
  · intro f hf; cases hf

/-- Telling the generator of an anchor that the last header carries, with no
    write attempted since: the window over it is wider than before. -/
theorem NonceInv.commitAnchor {g : MainDbNonceGen}
    (hg : s.nonceGen.commitAnchor s.last.counterAnchor = .ok g) (hatt : s.attempted = []) :
    NonceInv { s with nonceGen := g } := by
  obtain ⟨hle, hpend, rfl⟩ := MainDbNonceGen.commitAnchor_eq_ok hg
  have hnext := h.anchor_lt_next
  unfold MainDbNonceGen.pendingAnchor at hpend
  refine ⟨?_, h.next_le, ⟨Nat.le_refl _, h.last_anchor.2⟩, ?_, h.issued_lt, ?_, h.issued_nodup⟩
  · show s.last.counterAnchor < s.nonceGen.next
    omega
  · show ∀ f ∈ s.attempted, _
    rw [hatt]
    intro f hf; cases hf
  · intro n hn
    obtain ⟨hw, hm⟩ := h.issued_window n hn
    exact ⟨by show n.counter ≤ s.last.counterAnchor + MAX_ANCHOR_BUDGET; omega, hm⟩

/-- One more nonce. -/
theorem NonceInv.nextNonce {n : Nonce} {g : MainDbNonceGen}
    (hn : s.nonceGen.nextNonce = .ok (n, g)) :
    NonceInv { s with nonceGen := g, issued := s.issued ++ [n] } := by
  obtain ⟨rfl, rfl, hmax, hwin⟩ := MainDbNonceGen.nextNonce_eq_ok hn
  have hnext := h.anchor_lt_next
  constructor
  · show s.nonceGen.durableAnchor < s.nonceGen.next + 1
    omega
  · show s.nonceGen.next + 1 ≤ U64_MAX
    have : Nonce.COUNTER_MAX + 1 ≤ U64_MAX := by decide
    omega
  · exact h.last_anchor
  · exact h.attempted_anchor
  · intro m hm
    show m.counter < s.nonceGen.next + 1
    rcases mem_concat.mp hm with hm | rfl
    · have := h.issued_lt m hm
      omega
    · exact Nat.lt_succ_self _
  · intro m hm
    rcases mem_concat.mp hm with hm | rfl
    · exact h.issued_window m hm
    · exact ⟨hwin, hmax⟩
  · -- the new counter is above every earlier one
    show ((s.issued ++ [_]).map Nonce.counter).Nodup
    rw [map_append, nodup_append]
    refine ⟨h.issued_nodup, nodup_singleton _, ?_⟩
    intro a ha b hb
    obtain ⟨m, hm, rfl⟩ := mem_map.mp ha
    rw [map_singleton, mem_singleton] at hb
    have := h.issued_lt m hm
    rw [hb]
    show m.counter ≠ s.nonceGen.next
    omega

/-- Recovery from any header a crash can leave in force. -/
theorem NonceInv.recover {f : MainDbHeaderFields}
    (hf : s.nonceGen.durableAnchor ≤ f.counterAnchor ∧ f.counterAnchor < U64_MAX)
    (cursor : HeaderCursor) (budget : Nat) :
    NonceInv { s with
      cursor := cursor
      nonceGen := MainDbNonceGen.recover s.fileId f.counterAnchor budget
      poisoned := false
      last := f
      attempted := [] } := by
  have hwin : ∀ n ∈ s.issued, n.counter ≤ f.counterAnchor + MAX_ANCHOR_BUDGET
      ∧ n.counter ≤ Nonce.COUNTER_MAX := by
    intro n hn
    obtain ⟨hw, hm⟩ := h.issued_window n hn
    exact ⟨by omega, hm⟩
  refine ⟨?_, ?_, ⟨Nat.le_refl _, hf.2⟩, ?_, ?_, hwin, h.issued_nodup⟩
  · exact MainDbNonceGen.recover_anchor_lt_next _ _ _ hf.2
  · exact MainDbNonceGen.recover_next_le _ _ _
  · intro g hg; cases hg
  · intro n hn
    obtain ⟨hw, hm⟩ := hwin n hn
    exact MainDbNonceGen.recover_next_gt _ _ _ _ hw hm

omit h

/-! ## §4. Both invariants along a run -/

/-- The invariant of the header protocol. -/
def HeaderInv (s : HeaderStore) : Prop := SlotInv s ∧ NonceInv s

theorem headerInv_refresh (h : HeaderInv s) (hp : s.poisoned = false) (o : WriteOutcome) :
    HeaderInv (s.refreshMainAnchor o).2 ∧ (s.refreshMainAnchor o).2.poisoned = false := by
  unfold HeaderStore.refreshMainAnchor
  rcases refreshAnchor_cases s.file s.cursor s.nonceGen.pendingAnchor o with
    hno | ⟨old, fields, file, r, hslot, hle, rfl, hw, heq⟩
  · simp only [hno]
    exact ⟨h, hp⟩
  · -- the header read back from the cursor's slot is the last one
    rw [h.1.live] at hslot
    cases hslot
    have hatt := h.1.attempt hp (p := s.poisoned) rfl hw (.inl rfl)
    have hanchor : MainDbHeaderFields.counterAnchor
        { s.last with counterAnchor := s.nonceGen.pendingAnchor, seq := s.cursor.seq + 1 }
          = s.nonceGen.pendingAnchor := rfl
    have hnatt := h.2.attempt hanchor file s.poisoned
    simp only [heq]
    cases r with
    | error e => exact ⟨⟨hatt, hnatt⟩, hp⟩
    | ok slot =>
      simp only [Except.toOption, Option.map_some]
      cases hg : s.nonceGen.commitAnchor s.nonceGen.pendingAnchor with
      | error e => exact ⟨⟨hatt, hnatt⟩, hp⟩
      | ok g =>
        exact ⟨⟨h.1.ok_write rfl hw g s.poisoned,
          (h.2.ok_write rfl file _ s.poisoned).commitAnchor hg rfl⟩, hp⟩

theorem headerInv_issueMany : ∀ (count : Nat) {s : HeaderStore}, HeaderInv s → s.poisoned = false →
    HeaderInv (HeaderStore.issueMany count s).2 ∧ (HeaderStore.issueMany count s).2.poisoned = false
  | 0, _, h, hp => ⟨h, hp⟩
  | count + 1, s, h, hp => by
    unfold HeaderStore.issueMany
    cases hn : s.nonceGen.nextNonce with
    | error e => exact ⟨h, hp⟩
    | ok ng => exact headerInv_issueMany count ⟨h.1.issue _ _, h.2.nextNonce hn⟩ hp

theorem headerInv_flushNonces : ∀ (turns stillNeeded : Nat) (outcomes : List WriteOutcome)
    {s : HeaderStore}, HeaderInv s → s.poisoned = false →
    HeaderInv (HeaderStore.flushNonces turns stillNeeded outcomes s).2
  | 0, _, _, _, h, _ => h
  | turns + 1, stillNeeded, outcomes, s, h, hp => by
    -- one turn: an optional refresh, a batch of nonces, and the rest
    have hbatch : ∀ (count : Nat) (os : List WriteOutcome) {t : HeaderStore}, HeaderInv t →
        t.poisoned = false →
        HeaderInv (match HeaderStore.issueMany count t with
          | (false, u) => (false, u)
          | (true, u) => HeaderStore.flushNonces turns (stillNeeded - count) os u).2 := by
      intro count os t ht htp
      have hi := headerInv_issueMany count ht htp
      rcases hr : HeaderStore.issueMany count t with ⟨_ | _, u⟩
      · rw [hr] at hi; exact hi.1
      · rw [hr] at hi; exact headerInv_flushNonces turns _ os hi.1 hi.2
    unfold HeaderStore.flushNonces
    split_ifs with hz hw
    · exact h
    · have hr := headerInv_refresh h hp (outcomes.headD .ok)
      rcases hq : s.refreshMainAnchor (outcomes.headD .ok) with ⟨_ | _, t⟩
      · rw [hq] at hr; exact hr.1
      · rw [hq] at hr; exact hbatch _ _ hr.1 hr.2
    · exact hbatch _ _ h hp

theorem headerInv_commitPath (h : HeaderInv s) (hp : s.poisoned = false)
    (payload : MainDbHeaderFields) (o : WriteOutcome) (published : Bool) :
    HeaderInv (s.commitPath payload o published) := by
  unfold HeaderStore.commitPath
  cases hseq : s.cursor.nextSeq with
  | none => exact h
  | some seq =>
    have hs := HeaderCursor.nextSeq_eq_some hseq
    subst hs
    simp only
    rcases hw : commitHeader s.file
        { payload with seq := s.cursor.seq + 1, counterAnchor := s.nonceGen.pendingAnchor }
        s.cursor.slot o with ⟨file, (_ | _) | slot⟩
    · exact ⟨h.1.attempt hp rfl hw (.inr (.inr (commitHeader_notStarted hw))), h.2.attempt rfl _ _⟩
    · exact ⟨h.1.attempt hp rfl hw (.inr (.inl rfl)), h.2.attempt rfl _ _⟩
    · simp only
      have hanchor : MainDbHeaderFields.counterAnchor
          { payload with seq := s.cursor.seq + 1, counterAnchor := s.nonceGen.pendingAnchor }
            = s.nonceGen.pendingAnchor := rfl
      have hnon := h.2.ok_write hanchor file ⟨slot, s.cursor.seq + 1⟩
      cases published with
      | false => exact ⟨h.1.ok_write rfl hw _ _, hnon true⟩
      | true =>
        cases hg : s.nonceGen.commitAnchor s.nonceGen.pendingAnchor with
        | error e => exact ⟨h.1.ok_write rfl hw _ _, hnon true⟩
        | ok g => exact ⟨h.1.ok_write rfl hw _ _, (hnon s.poisoned).commitAnchor hg rfl⟩

theorem headerInv_openExisting (h : HeaderInv s) (budget : Nat) :
    HeaderInv (s.openExisting budget) := by
  refine ⟨h.1.openExisting budget, ?_⟩
  unfold HeaderStore.openExisting
  rcases h.1.select with ⟨hsel, -⟩ | ⟨g, hg, hsel, -, -⟩
  · rw [hsel]
    exact h.2.recover h.2.last_anchor _ budget
  · rw [hsel]
    exact h.2.recover (h.2.attempted_anchor g hg) _ budget

theorem headerInv_step (s : HeaderStore) (e : HeaderEvent) (h : HeaderInv s) :
    HeaderInv (s.step e) := by
  cases e with
  | openExisting budget => exact headerInv_openExisting h budget
  | flush pages outcomes =>
    show HeaderInv (if s.poisoned then s else _)
    split_ifs with hp
    · exact h
    · exact headerInv_flushNonces pages pages outcomes h (Bool.eq_false_iff.mpr hp)
  | refresh o =>
    show HeaderInv (if s.poisoned then s else _)
    split_ifs with hp
    · exact h
    · exact (headerInv_refresh h (Bool.eq_false_iff.mpr hp) o).1
  | commit payload o published =>
    show HeaderInv (if s.poisoned then s else _)
    split_ifs with hp
    · exact h
    · exact headerInv_commitPath h (Bool.eq_false_iff.mpr hp) payload o published

theorem headerInv_run (fileId : Bytes) (initial : MainDbHeaderFields) (budget : Nat)
    (es : List HeaderEvent) :
    HeaderInv (Lib.run HeaderStore.step (HeaderStore.create fileId initial budget) es) :=
  Lib.run_invariant headerInv_step es _
    ⟨slotInv_create fileId initial budget, nonceInv_create fileId initial budget⟩

/-! ## §5. The A/B protocol -/

/-- **What the next open finds, after any run.**  It selects the header of the
    last write that reported success (or that an open adopted), or the header
    of a write attempted since: an anchor refresh of it, which names the same
    state, or the very last write.  All those attempts carry one sequence, the
    next one.  The write after the open leaves the selected slot alone and
    carries a sequence above both slots. -/
theorem open_selects_last_or_attempted (fileId : Bytes) (initial : MainDbHeaderFields)
    (budget : Nat) (es : List HeaderEvent) :
    let s := Lib.run HeaderStore.step (HeaderStore.create fileId initial budget) es
    ∃ g slot, selectHeader s.file = some (g, slot)
      ∧ (g = s.last ∨ g ∈ s.attempted ∧ (AnchorOnly s.last g ∨ s.attempted.getLast? = some g))
      ∧ (∀ f ∈ s.attempted, f.seq = s.last.seq + 1)
      ∧ (∀ fields o, (commitHeader s.file fields slot o).1.slot slot = some g)
      ∧ (∀ seq, (HeaderCursor.mk slot g.seq).nextSeq = some seq →
          ∀ t f, s.file.slot t = some f → f.seq < seq) := by
  intro s
  have hinv : SlotInv s := (headerInv_run fileId initial budget es).1
  have hatt : ∀ f ∈ s.attempted, f.seq = s.last.seq + 1 := by
    intro f hf
    rw [hinv.live_seq]
    exact hinv.attempted_seq f hf
  -- the selected slot is kept by any write aimed at the other one
  have hkeep : ∀ {g slot}, s.file.slot slot = some g → ∀ fields o,
      (commitHeader s.file fields slot o).1.slot slot = some g := by
    intro g slot hg fields o
    have hpair : commitHeader s.file fields slot o
        = ((commitHeader s.file fields slot o).1, (commitHeader s.file fields slot o).2) := rfl
    rw [(commitHeader_slots hpair).1, hg]
  -- a sequence above the selected header's is above both slots'
  have habove : ∀ {g slot}, s.file.slot slot = some g →
      (∀ f, s.file.slot slot.other = some f → f.seq < g.seq) →
      ∀ seq, (HeaderCursor.mk slot g.seq).nextSeq = some seq →
        ∀ t f, s.file.slot t = some f → f.seq < seq := by
    intro g slot hg hlt seq hseq t f hf
    have hs : seq = g.seq + 1 := HeaderCursor.nextSeq_eq_some hseq
    by_cases ht : t = slot
    · rw [ht, hg] at hf
      cases hf
      show g.seq < seq
      omega
    · have hto : t = slot.other := by cases t <;> cases slot <;> simp_all [ActiveSlot.other]
      rw [hto] at hf
      have := hlt f hf
      show f.seq < seq
      omega
  rcases hinv.select with ⟨hsel, hlt⟩ | ⟨g, hg, hsel, hslot, hkind⟩
  · exact ⟨s.last, _, hsel, .inl rfl, hatt, hkeep hinv.live, habove hinv.live hlt⟩
  · refine ⟨g, _, hsel, .inr ⟨hg, hkind⟩, hatt, hkeep hslot, habove hslot ?_⟩
    intro f hf
    rw [ActiveSlot.other_other, hinv.live] at hf
    cases hf
    have := hatt g hg
    omega

/-- The header of a store with nothing in it. -/
def emptyHeader : MainDbHeaderFields :=
  ⟨1, 0, 0, 0, 0, 0, 0, 0, 0, 4, 0, 0⟩

/-- Two writes after the last success: a refresh whose error hides that its
    header landed, then a commit whose write left the old bytes.  The open
    selects the refresh, which is neither the last success nor the last write. -/
theorem select_skips_last_attempt :
    let s := Lib.run HeaderStore.step (HeaderStore.create [] emptyHeader 1)
      [.flush 2 [.unknown .new], .commit { emptyHeader with commitId := 1 } (.unknown .old) true]
    let refreshed := { emptyHeader with seq := 2 }
    selectHeader s.file = some (refreshed, .B) ∧ refreshed ≠ s.last
      ∧ s.attempted = [refreshed, { emptyHeader with seq := 2, commitId := 1 }]
      ∧ s.attempted.getLast? ≠ some refreshed := by
  refine ⟨rfl, by decide, rfl, by decide⟩

/-! ## §6. Nonce uniqueness -/

/-- **No counter is issued twice, over every run.**  The counters of all runs of
    the store are distinct 48-bit values, and whichever header a crash leaves in
    force, the generator recovered from it starts above all of them. -/
theorem issued_counters_unique (fileId : Bytes) (initial : MainDbHeaderFields)
    (budget : Nat) (es : List HeaderEvent) :
    let s := Lib.run HeaderStore.step (HeaderStore.create fileId initial budget) es
    (s.issued.map Nonce.counter).Nodup ∧ (∀ n ∈ s.issued, n.counter ≤ Nonce.COUNTER_MAX)
      ∧ ∃ f slot, selectHeader s.file = some (f, slot) ∧ ∀ b, ∀ n ∈ s.issued,
            n.counter < (MainDbNonceGen.recover s.fileId f.counterAnchor b).next := by
  intro s
  obtain ⟨hslot, hnonce⟩ : HeaderInv s := headerInv_run fileId initial budget es
  -- the anchor in force bounds the window every earlier run issued in
  have hstart : ∀ {f : MainDbHeaderFields}, s.nonceGen.durableAnchor ≤ f.counterAnchor →
      ∀ b, ∀ n ∈ s.issued,
        n.counter < (MainDbNonceGen.recover s.fileId f.counterAnchor b).next := by
    intro f hf b n hn
    obtain ⟨hw, hm⟩ := hnonce.issued_window n hn
    exact MainDbNonceGen.recover_next_gt _ _ _ _ (by omega) hm
  refine ⟨hnonce.issued_nodup, fun n hn => (hnonce.issued_window n hn).2, ?_⟩
  rcases hslot.select with ⟨hsel, -⟩ | ⟨g, hg, hsel, -, -⟩
  · exact ⟨_, _, hsel, hstart hnonce.last_anchor.1⟩
  · exact ⟨_, _, hsel, hstart (hnonce.attempted_anchor g hg).1⟩

end Pagedb
