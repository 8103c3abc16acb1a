/-
  Pagedb.Pager.Header — the A/B header slots of main.db (`pager/header.rs`,
  `pager/anchor.rs`) and the slot selection of an open
  (`txn/db/open/existing.rs`).

  A slot is modelled by what authenticating it under the header key yields:
  `some fields` when the MAC verifies, `none` for a zero page, a torn write or
  damage, which the source does not tell apart either.  The MAC being
  unforgeable is the reading of `none`: bytes nobody wrote as a header never
  decode to one.

  What the file system does with one header write is a `WriteOutcome`, an
  argument of `commitHeader`: it succeeds, it fails before any byte, or it is
  cut and leaves the targeted slot with its old bytes, its new bytes or bytes
  that do not verify.
-/
import Pagedb.Basic

namespace Pagedb

/-- `ActiveSlot`. -/
inductive ActiveSlot where
  | A
  | B
  deriving DecidableEq, Repr

/-- `ActiveSlot::other`. -/
def ActiveSlot.other : ActiveSlot → ActiveSlot
  | .A => .B
  | .B => .A

@[simp] theorem ActiveSlot.other_other (s : ActiveSlot) : s.other.other = s := by
  cases s <;> rfl

/-- `MainDbHeaderFields`, without the fields no modelled path changes (format
    version, cipher, page size, flags, file id, salt, epoch, realm, restore
    mode and the apply-journal root). -/
structure MainDbHeaderFields where
  seq : Nat
  activeRootPageId : PageId
  counterAnchor : Nat
  commitId : CommitId
  freeListRoot : PageId
  catalogRootPageId : PageId
  catalogRootTxnId : CommitId
  commitHistoryRootPageId : PageId
  commitHistoryRootVersion : Nat
  nextPageId : PageId
  commitRetainPolicyTag : Nat
  commitRetainPolicyValue : Nat
  deriving DecidableEq, Repr

/-- The two slots of main.db, each as its authentication result. -/
structure HeaderFile where
  a : Option MainDbHeaderFields
  b : Option MainDbHeaderFields
  deriving DecidableEq, Repr

/-- What the named slot authenticates to. -/
def HeaderFile.slot (f : HeaderFile) : ActiveSlot → Option MainDbHeaderFields
  | .A => f.a
  | .B => f.b

/-- Replace the named slot. -/
def HeaderFile.setSlot (f : HeaderFile) (s : ActiveSlot) (v : Option MainDbHeaderFields) :
    HeaderFile :=
  match s with
  | .A => { f with a := v }
  | .B => { f with b := v }

@[simp] theorem HeaderFile.slot_setSlot (f : HeaderFile) (s : ActiveSlot)
    (v : Option MainDbHeaderFields) : (f.setSlot s v).slot s = v := by
  cases s <;> rfl

@[simp] theorem HeaderFile.slot_setSlot_other (f : HeaderFile) (s : ActiveSlot)
    (v : Option MainDbHeaderFields) : (f.setSlot s.other v).slot s = f.slot s := by
  cases s <;> rfl

/-- `HeaderCursor`: the authoritative slot and the sequence it carries. -/
structure HeaderCursor where
  slot : ActiveSlot
  seq : Nat
  deriving DecidableEq, Repr

/-- `HeaderCursor::next_seq`, with the `checked_add` of the source. -/
def HeaderCursor.nextSeq (c : HeaderCursor) : Option Nat :=
  if c.seq + 1 < 2 ^ 64 then some (c.seq + 1) else none

theorem HeaderCursor.nextSeq_eq_some {c : HeaderCursor} {n : Nat} (h : c.nextSeq = some n) :
    n = c.seq + 1 := by
  unfold nextSeq at h
  split at h
  · exact (Option.some.inj h).symm
  · cases h

/-- What a cut write leaves in the slot it targets. -/
inductive Landed where
  | old
  | new
  | torn
  deriving DecidableEq, Repr

/-- What the file system does with one header write. -/
inductive WriteOutcome where
  | ok
  | notStarted
  | unknown (landed : Landed)
  deriving DecidableEq, Repr

/-- `HeaderWriteError`. -/
inductive HeaderWriteError where
  | notStarted
  | outcomeUnknown
  deriving DecidableEq, Repr

/-- The slot content a cut write leaves, from the old content and the new. -/
def Landed.apply (l : Landed) (old : Option MainDbHeaderFields) (new : MainDbHeaderFields) :
    Option MainDbHeaderFields :=
  match l with
  | .old => old
  | .new => some new
  | .torn => none

/-- `commit_header`: write `fields` into the slot that is not `previous`. -/
def commitHeader (f : HeaderFile) (fields : MainDbHeaderFields) (previous : ActiveSlot)
    (o : WriteOutcome) : HeaderFile × Except HeaderWriteError ActiveSlot :=
  let next := previous.other
  match o with
  | .notStarted => (f, .error .notStarted)
  | .unknown l => (f.setSlot next (l.apply (f.slot next) fields), .error .outcomeUnknown)
  | .ok => (f.setSlot next (some fields), .ok next)

/-- The slot selection of an open: the verifying slot with the greater `seq`,
    slot A on a tie.  Before it an open runs `check_page_size` and
    `check_format_version`.  They read the raw bytes of both slots, those of one that
    does not verify too, and can refuse the open; they are not modelled, and a slot
    here has no raw bytes. -/
def selectHeader (f : HeaderFile) : Option (MainDbHeaderFields × ActiveSlot) :=
  match f.a, f.b with
  | some a, some b => if a.seq ≥ b.seq then some (a, .A) else some (b, .B)
  | some a, none => some (a, .A)
  | none, some b => some (b, .B)
  | none, none => none

/-- `refresh_anchor`: rewrite the authoritative header with `anchor` and the
    next sequence.  The second component is the header the call tried to write,
    if it got that far. -/
def refreshAnchor (f : HeaderFile) (cursor : HeaderCursor) (anchor : Nat) (o : WriteOutcome) :
    HeaderFile × Option MainDbHeaderFields × Option HeaderCursor :=
  match f.slot cursor.slot with
  | none => (f, none, none)
  | some fields =>
    -- a refresh may only ever raise the anchor
    if anchor < fields.counterAnchor then (f, none, none)
    else
      match cursor.nextSeq with
      | none => (f, none, none)
      | some seq =>
        let fields := { fields with counterAnchor := anchor, seq := seq }
        match commitHeader f fields cursor.slot o with
        | (f', .ok slot) => (f', some fields, some ⟨slot, seq⟩)
        | (f', .error _) => (f', some fields, none)

/-! ## What a header write does to the two slots -/

variable {f f' : HeaderFile} {fields : MainDbHeaderFields} {previous : ActiveSlot}
  {o : WriteOutcome}

/-- The slot that was authoritative is never touched, and the other one holds
    what it held, the new header, or nothing that verifies. -/
theorem commitHeader_slots {r : Except HeaderWriteError ActiveSlot}
    (h : commitHeader f fields previous o = (f', r)) :
    f'.slot previous = f.slot previous
      ∧ ∀ g, f'.slot previous.other = some g → f.slot previous.other = some g ∨ g = fields := by
  cases o with
  | ok =>
    simp only [commitHeader, Prod.mk.injEq] at h
    obtain ⟨rfl, -⟩ := h
    refine ⟨by simp, fun g hg => .inr ?_⟩
    rw [HeaderFile.slot_setSlot] at hg
    exact (Option.some.inj hg).symm
  | notStarted =>
    simp only [commitHeader, Prod.mk.injEq] at h
    obtain ⟨rfl, -⟩ := h
    exact ⟨rfl, fun g hg => .inl hg⟩
  | unknown l =>
    simp only [commitHeader, Prod.mk.injEq] at h
    obtain ⟨rfl, -⟩ := h
    refine ⟨by simp, fun g hg => ?_⟩
    rw [HeaderFile.slot_setSlot] at hg
    cases l with
    | old => exact .inl hg
    | new => exact .inr (Option.some.inj hg).symm
    | torn => cases hg

theorem commitHeader_eq_ok {slot : ActiveSlot}
    (h : commitHeader f fields previous o = (f', .ok slot)) :
    f' = f.setSlot previous.other (some fields) ∧ slot = previous.other := by
  cases o with
  | ok =>
    simp only [commitHeader, Prod.mk.injEq, Except.ok.injEq] at h
    exact ⟨h.1.symm, h.2.symm⟩
  | _ => simp [commitHeader] at h

theorem commitHeader_notStarted (h : commitHeader f fields previous o = (f', .error .notStarted)) :
    f' = f := by
  cases o with
  | notStarted =>
    simp only [commitHeader, Prod.mk.injEq, and_true] at h
    exact h.symm
  | _ => simp [commitHeader] at h

/-- The three ways an anchor refresh ends: refused before the write, a write
    that failed, a write that succeeded.  In the last two the header written is
    the authoritative one with the new anchor and the next sequence. -/
theorem refreshAnchor_cases (f : HeaderFile) (c : HeaderCursor) (a : Nat) (o : WriteOutcome) :
    refreshAnchor f c a o = (f, none, none)
    ∨ ∃ old fields f' r, f.slot c.slot = some old ∧ old.counterAnchor ≤ a
        ∧ fields = { old with counterAnchor := a, seq := c.seq + 1 }
        ∧ commitHeader f fields c.slot o = (f', r)
        ∧ refreshAnchor f c a o
          = (f', some fields, r.toOption.map fun slot => ⟨slot, fields.seq⟩) := by
  unfold refreshAnchor
  cases hslot : f.slot c.slot with
  | none => exact .inl rfl
  | some old =>
    by_cases ha : a < old.counterAnchor
    · left
      simp only [if_pos ha]
    · cases hseq : c.nextSeq with
      | none =>
        left
        simp only [if_neg ha]
      | some seq =>
        right
        have hs := HeaderCursor.nextSeq_eq_some hseq
        subst hs
        simp only [if_neg ha]
        rcases hw : commitHeader f { old with counterAnchor := a, seq := c.seq + 1 } c.slot o
          with ⟨f', _ | slot⟩
        · exact ⟨old, _, f', _, rfl, by omega, rfl, hw, rfl⟩
        · exact ⟨old, _, f', _, rfl, by omega, rfl, hw, rfl⟩

/-! ## Selection, by the verifying slot with the larger sequence -/

/-- A verifying slot that beats the other one is the one selected. -/
theorem selectHeader_of_slot {s : ActiveSlot} {h : MainDbHeaderFields} (hs : f.slot s = some h)
    (ho : ∀ g, f.slot s.other = some g → g.seq < h.seq) : selectHeader f = some (h, s) := by
  cases s with
  | A =>
    have ha : f.a = some h := hs
    unfold selectHeader
    rw [ha]
    cases hb : f.b with
    | none => rfl
    | some g =>
      have hlt : g.seq < h.seq := ho g hb
      simp only [ge_iff_le, if_pos (Nat.le_of_lt hlt)]
  | B =>
    have hb : f.b = some h := hs
    unfold selectHeader
    rw [hb]
    cases ha : f.a with
    | none => rfl
    | some g =>
      have hlt : g.seq < h.seq := ho g ha
      simp only [ge_iff_le, if_neg (Nat.not_le.mpr hlt)]

end Pagedb
