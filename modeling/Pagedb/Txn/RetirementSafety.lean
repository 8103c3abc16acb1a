/-
  Pagedb.Txn.RetirementSafety — no key goes early, and none is forgotten.

  Every thread relies on little where it is (`Registry.Relies`), and no step of
  another takes that away (`Registry.Spares`).  Every call is under way, recorded or
  executed (`Registry.Honoured`), and what has not been tried has someone to try it
  (`Registry.Owed`).

    * `retirement_waits_and_is_never_forgotten` — over every interleaving.
-/
import Pagedb.Txn.Retirement

namespace Pagedb

open Lib List

variable {T : Type}

/-- The entries that a thread has taken in hand. -/
def RetirePhase.obligations : RetirePhase → List Obligation
  | .sweeping kept todo _ => kept ++ todo
  | .removing kept o todo _ => kept ++ o :: todo
  | _ => []

/-- The thread is in this call, and has not recorded it yet. -/
def RetirePhase.Asks (a : Ask) : RetirePhase → Prop
  | .calling p before | .callLocked p before | .callDecided p before _ =>
    p = a.pending ∧ before = a.before
  | _ => False

/-- The entry is for the key that was asked for, and waits for the same readers. -/
def Obligation.Covers (o : Obligation) (a : Ask) : Prop :=
  o.pending = a.pending ∧ a.before ⊆ o.before

namespace Registry

variable {s s' : Registry T}

/-! ## §1. What holds at every moment -/

/-- A retirement that was asked for: its key's epoch is not above the active one, the
    readers to wait for have been tracked, and among them are those of a call. -/
def Asked (s : Registry T) (p : PendingKeyRetirement) (before : List Nat) : Prop :=
  p.epoch ≤ s.activeEpoch ∧ (∀ r ∈ before, r ∈ s.seen)
    ∧ ∃ a ∈ s.asked, a.pending = p ∧ a.before ⊆ before

/-- None of these readers is tracked any more. -/
def Gone (s : Registry T) (before : List Nat) : Prop := ∀ r ∈ before, r ∉ s.trackedReaders

/-- What a thread relies on, where it is. -/
def Relies (s : Registry T) (t : T) : RetirePhase → Prop
  | .idle | .unregistering _ | .draining => True
  | .registering id => id < s.readerSeq ∧ id ∉ s.seen
  | .drainLocked => s.locked = some t
  | .calling p before => s.Asked p before
  | .callLocked p before => s.locked = some t ∧ s.Asked p before
  | .callDecided p before present => s.locked = some t ∧ s.Asked p before
      ∧ (present = false → s.Gone before ∧ ∀ o ∈ s.pendingKeyRetirements, s.Gone o.before)
  | .sweeping kept todo _ => s.locked = some t ∧ s.pendingKeyRetirements = []
      ∧ (∀ o ∈ kept ++ todo, s.Asked o.pending o.before ∧ s.Gone o.before)
      ∧ ∀ o ∈ kept, o.refused = true
  | .removing kept o todo _ => s.locked = some t ∧ s.pendingKeyRetirements = []
      ∧ (∀ o' ∈ kept ++ o :: todo, s.Asked o'.pending o'.before ∧ s.Gone o'.before)
      ∧ (∀ o ∈ kept, o.refused = true) ∧ ¬ s.Active o.pending

/-- A change that a thread elsewhere does not notice. -/
structure Spares (t : T) (s s' : Registry T) : Prop where
  seq : s.readerSeq ≤ s'.readerSeq
  seen : ∀ r ∈ s.seen, r ∈ s'.seen
  new : ∀ id, s.phase t = .registering id → id ∉ s.seen → id ∉ s'.seen
  readers : ∀ r ∈ s'.trackedReaders, r ∈ s.trackedReaders ∨ r ∉ s.seen
  epoch : s.activeEpoch ≤ s'.activeEpoch
  cipher : s'.cipherId = s.cipherId
  lock : s.locked = some t → s'.locked = some t ∧ s'.pendingKeyRetirements = s.pendingKeyRetirements
  calls : s.asked ⊆ s'.asked

section Spares

variable {t : T}

variable (h : Spares t s s')

include h

theorem Spares.asked {p : PendingKeyRetirement} {before : List Nat}
    (ha : s.Asked p before) : s'.Asked p before := by
  obtain ⟨hepoch, hseen, a, hmem, ha⟩ := ha
  exact ⟨hepoch.trans h.epoch, fun r hr => h.seen r (hseen r hr), a, h.calls hmem, ha⟩

theorem Spares.gone {before : List Nat} (hseen : ∀ r ∈ before, r ∈ s.seen)
    (hg : s.Gone before) : s'.Gone before := by
  intro r hr hmem
  rcases h.readers r hmem with hold | hnew
  · exact hg r hr hold
  · exact hnew (hseen r hr)

theorem Spares.good {l : List Obligation}
    (hl : ∀ o ∈ l, s.Asked o.pending o.before ∧ s.Gone o.before) :
    ∀ o ∈ l, s'.Asked o.pending o.before ∧ s'.Gone o.before :=
  fun o ho => ⟨h.asked (hl o ho).1, h.gone (hl o ho).1.2.1 (hl o ho).2⟩

theorem Spares.inactive {p : PendingKeyRetirement} {before : List Nat}
    (ha : s.Asked p before) (hp : ¬ s.Active p) : ¬ s'.Active p := by
  rintro ⟨hepoch, hcipher⟩
  have hle := h.epoch
  have hasked := ha.1
  refine hp ⟨by omega, hcipher.trans h.cipher⟩

theorem Relies.spares (hlisted : ∀ o ∈ s.pendingKeyRetirements, s.Asked o.pending o.before)
    (hr : s.Relies t (s.phase t)) : s'.Relies t (s.phase t) := by
  generalize hp : s.phase t = p at hr
  cases p with
  | registering id => exact ⟨lt_of_lt_of_le hr.1 h.seq, h.new id hp hr.2⟩
  | drainLocked => exact (h.lock hr).1
  | calling p before => exact h.asked hr
  | callLocked p before => exact ⟨(h.lock hr.1).1, h.asked hr.2⟩
  | callDecided p before present =>
    obtain ⟨hlock, hasked, hgone⟩ := hr
    refine ⟨(h.lock hlock).1, h.asked hasked, fun hpresent => ?_⟩
    obtain ⟨hbefore, hlist⟩ := hgone hpresent
    refine ⟨h.gone hasked.2.1 hbefore, ?_⟩
    rw [(h.lock hlock).2]
    exact fun o ho => h.gone (hlisted o ho).2.1 (hlist o ho)
  | sweeping kept todo e =>
    obtain ⟨hlock, hempty, hgood, hrefused⟩ := hr
    exact ⟨(h.lock hlock).1, (h.lock hlock).2.trans hempty, h.good hgood, hrefused⟩
  | removing kept o todo e =>
    obtain ⟨hlock, hempty, hgood, hrefused, hactive⟩ := hr
    refine ⟨(h.lock hlock).1, (h.lock hlock).2.trans hempty, h.good hgood, hrefused, ?_⟩
    exact h.inactive (hgood o (mem_append_right _ mem_cons_self)).1 hactive
  | _ => trivial

end Spares

/-- A removal that was asked for, waited for the readers, and left the active key. -/
def Done (s : Registry T) (x : Removal) : Prop :=
  (∃ a ∈ s.asked, a.pending = x.obligation.pending ∧ a.before ⊆ x.obligation.before)
    ∧ (∀ r ∈ x.obligation.before, r ∉ x.tracked)
    ∧ ¬ (x.obligation.pending.epoch = x.active ∧ x.obligation.pending.cipherId = s.cipherId)

/-- What the threads share. -/
structure Shared (s : Registry T) : Prop where
  below : ∀ r ∈ s.seen, r < s.readerSeq
  tracked : ∀ r ∈ s.trackedReaders, r ∈ s.seen
  listed : ∀ o ∈ s.pendingKeyRetirements, s.Asked o.pending o.before
  removed : ∀ x ∈ s.removals, s.Done x

/-- What holds at every moment. -/
structure Sound (s : Registry T) : Prop where
  shared : s.Shared
  relies : ∀ t, s.Relies t (s.phase t)
  apart : ∀ t t' id, s.phase t = .registering id → s.phase t' = .registering id → t = t'

theorem sound_opened (activeEpoch cipherId : Nat) :
    (opened activeEpoch cipherId : Registry T).Sound where
  shared := ⟨fun _ h => (by cases h), fun _ h => (by cases h), fun _ h => (by cases h),
    fun _ h => (by cases h)⟩
  relies := fun _ => trivial
  apart := nofun

theorem Spares.refl (t : T) (s : Registry T) : Spares t s s :=
  ⟨Nat.le_refl _, fun _ h => h, fun _ _ h => h, fun _ h => Or.inl h, Nat.le_refl _, rfl,
    fun h => ⟨h, rfl⟩, fun _ h => h⟩

/-- An entry after recording: one of the list, the new one, or the two in one. -/
theorem mem_recorded {p : PendingKeyRetirement} {before : List Nat} {o : Obligation}
    (h : o ∈ s.recorded p before) : o ∈ s.pendingKeyRetirements ∨ o = ⟨p, before, false⟩
      ∨ ∃ o' ∈ s.pendingKeyRetirements, o.pending = o'.pending ∧ o.before = o'.before ++ before := by
  unfold recorded at h
  split_ifs at h with hany
  · obtain ⟨o', ho', rfl⟩ := mem_map.mp h
    split_ifs
    · exact Or.inr (Or.inr ⟨o', ho', rfl, rfl⟩)
    · exact Or.inl ho'
  · exact (mem_concat.mp h).imp_right Or.inl

/-- What is recorded was asked for. -/
theorem recorded_listed {p : PendingKeyRetirement} {before : List Nat} (ha : s.Asked p before)
    (hl : ∀ o ∈ s.pendingKeyRetirements, s.Asked o.pending o.before) :
    ∀ o ∈ s.recorded p before, s.Asked o.pending o.before := by
  intro o ho
  rcases mem_recorded ho with ho | rfl | ⟨o', ho', hpending, hbefore⟩
  · exact hl o ho
  · exact ha
  · obtain ⟨hepoch, hseen, a, hmem, hfor, hsub⟩ := hl o' ho'
    rw [hpending, hbefore]
    refine ⟨hepoch, fun r hr => ?_, a, hmem, hfor, fun r hr => mem_append_left _ (hsub hr)⟩
    exact (mem_append.mp hr).elim (hseen r) (ha.2.1 r)

/-- And none of its readers is there, if none was. -/
theorem recorded_gone {p : PendingKeyRetirement} {before : List Nat} (hg : s.Gone before)
    (hl : ∀ o ∈ s.pendingKeyRetirements, s.Gone o.before) :
    ∀ o ∈ s.recorded p before, s.Gone o.before := by
  intro o ho
  rcases mem_recorded ho with ho | rfl | ⟨o', ho', -, hbefore⟩
  · exact hl o ho
  · exact hg
  · rw [hbefore]
    exact fun r hr => (mem_append.mp hr).elim (hl o' ho' r) (hg r)

theorem Sound.at {t : T} {p : RetirePhase} (h : s.Sound) (ht : s.phase t = p) : s.Relies t p :=
  ht ▸ h.relies t

section Moves

variable [DecidableEq T]

variable {p : RetirePhase}

/-- **One thread acts**: it changes what is shared, spares the others, and goes on to
    where it can rely on what it finds. -/
theorem Sound.act (h : s.Sound) (t : T) {s₁ : Registry T} (hphase : s₁.phase = s.phase)
    (hshared : s₁.Shared) (hspares : ∀ t', t' ≠ t → Spares t' s s₁) (hrelies : s₁.Relies t p)
    (hnew : ∀ id, p = .registering id → ∀ t', s.phase t' ≠ .registering id) :
    (s₁.goto t p).Sound := by
  have hat : ∀ t', (s₁.goto t p).phase t' = if t' = t then p else s.phase t' := by
    intro t'
    show Function.update s₁.phase t p t' = _
    rw [hphase, Function.update_apply]
  refine ⟨⟨hshared.below, hshared.tracked, hshared.listed, hshared.removed⟩, fun t' => ?_, ?_⟩
  · rw [hat]
    split_ifs with ht
    · rw [ht]
      exact hrelies
    · have hr := Relies.spares (hspares t' ht) h.shared.listed (h.relies t')
      exact hr
  · intro t' t'' id ht' ht''
    rw [hat] at ht' ht''
    by_cases h' : t' = t
    · by_cases h'' : t'' = t
      · rw [h', h'']
      · rw [if_pos h'] at ht'
        rw [if_neg h''] at ht''
        exact absurd ht'' (hnew id ht' t'')
    · by_cases h'' : t'' = t
      · rw [if_neg h'] at ht'
        rw [if_pos h''] at ht''
        exact absurd ht' (hnew id ht'' t')
      · rw [if_neg h'] at ht'
        rw [if_neg h''] at ht''
        exact h.apart t' t'' id ht' ht''

/-- A reader leaves. -/
theorem Sound.untrack (h : s.Sound) (t : T) (id : Nat)
    (hrelies : Relies { s with trackedReaders := s.trackedReaders.erase id } t p)
    (hnew : ∀ id, p = .registering id → ∀ t', s.phase t' ≠ .registering id) :
    (goto { s with trackedReaders := s.trackedReaders.erase id } t p).Sound := by
  refine h.act t rfl ⟨h.shared.below, fun r hr => h.shared.tracked r (mem_of_mem_erase hr),
    h.shared.listed, h.shared.removed⟩ (fun t' _ => ?_) hrelies hnew
  exact { Spares.refl t' s with readers := fun r hr => Or.inl (mem_of_mem_erase hr) }

theorem Sound.lock (h : s.Sound) (t : T) (hfree : s.locked = none)
    (hrelies : Relies { s with locked := some t } t p)
    (hnew : ∀ id, p = .registering id → ∀ t', s.phase t' ≠ .registering id) :
    (goto { s with locked := some t } t p).Sound := by
  refine h.act t rfl ⟨h.shared.below, h.shared.tracked, h.shared.listed, h.shared.removed⟩
    (fun t' _ => ?_) hrelies hnew
  exact { Spares.refl t' s with lock := fun h => by rw [hfree] at h; cases h }

/-- The holder of the lock does with the list what it wants. -/
theorem Sound.hold (h : s.Sound) (t : T) (hlock : s.locked = some t) {retirements : List Obligation}
    {locked : Option T} {answer : T → Except RetireError Unit} {removals : List Removal}
    (hlisted : ∀ o ∈ retirements, s.Asked o.pending o.before)
    (hremoved : ∀ x ∈ removals, s.Done x)
    (hrelies : Relies { s with
      pendingKeyRetirements := retirements
      locked := locked
      answer := answer
      removals := removals } t p)
    (hnew : ∀ id, p = .registering id → ∀ t', s.phase t' ≠ .registering id) :
    (goto { s with
      pendingKeyRetirements := retirements
      locked := locked
      answer := answer
      removals := removals } t p).Sound := by
  refine h.act t rfl ⟨h.shared.below, h.shared.tracked, hlisted, hremoved⟩ (fun t' hne => ?_) hrelies
    hnew
  exact { Spares.refl t' s with
    lock := fun h => absurd (Option.some.inj (h.symm.trans hlock)) hne }

/-- **Every move keeps what holds.** -/
theorem Sound.move (h : s.Sound) (hm : s.Move s') : s'.Sound := by
  have hshared := h.shared
  cases hm with
  | stay => exact h
  | activate epoch hepoch =>
    have hspares : ∀ t, Spares t s { s with activeEpoch := epoch } := fun t =>
      { Spares.refl t s with epoch := Nat.le_of_lt hepoch }
    refine ⟨⟨hshared.below, hshared.tracked, fun o ho => ?_, hshared.removed⟩, fun t => ?_, h.apart⟩
    · exact ⟨(hshared.listed o ho).1.trans (Nat.le_of_lt hepoch), (hshared.listed o ho).2⟩
    · have hr := Relies.spares (hspares t) hshared.listed (h.relies t)
      exact hr
  | takeId t ht =>
    refine h.act t rfl ⟨fun r hr => Nat.lt_succ_of_lt (hshared.below r hr), hshared.tracked,
      hshared.listed, hshared.removed⟩ (fun t' _ => ?_) ⟨Nat.lt_succ_self _, fun hr => ?_⟩ ?_
    · exact { Spares.refl t' s with seq := Nat.le_succ _ }
    · exact absurd (hshared.below _ hr) (Nat.lt_irrefl _)
    · intro id hid t' ht'
      cases hid
      exact absurd (h.at ht').1 (Nat.lt_irrefl _)
  | leave t id ht =>
    exact h.act t rfl hshared (fun t' _ => Spares.refl t' s) trivial nofun
  | call t p ht hp =>
    have hspares : ∀ t', Spares t' s (s.ask p) := fun t' =>
      { Spares.refl t' s with calls := subset_append_left _ _ }
    refine h.act t rfl ⟨hshared.below, hshared.tracked, fun o ho => (hspares t).asked
      (hshared.listed o ho), fun x hx => ?_⟩ (fun t' _ => hspares t') ⟨hp, hshared.tracked, _,
        mem_append_right _ (mem_singleton_self _), rfl, fun _ h => h⟩ nofun
    obtain ⟨⟨a, ha, hcovers⟩, hdone⟩ := hshared.removed x hx
    exact ⟨⟨a, mem_append_left _ ha, hcovers⟩, hdone⟩
  | track t id ht =>
    have hr := h.at ht
    refine h.act t rfl ⟨fun r hr' => ?_, fun r hr' => ?_, fun o ho => ?_, hshared.removed⟩
      (fun t' hne => ?_) trivial nofun
    · rcases mem_cons.mp hr' with rfl | hr'
      · exact hr.1
      · exact hshared.below r hr'
    · rcases mem_concat.mp hr' with hr' | rfl
      · exact mem_cons_of_mem _ (hshared.tracked r hr')
      · exact mem_cons_self
    · exact ⟨(hshared.listed o ho).1,
        fun r hr' => mem_cons_of_mem _ ((hshared.listed o ho).2.1 r hr'), (hshared.listed o ho).2.2⟩
    · refine { Spares.refl t' s with
        seen := fun _ h => mem_cons_of_mem _ h
        new := fun id' hid' hnot hmem => ?_
        readers := fun r hr' => ?_ }
      · rcases mem_cons.mp hmem with rfl | hmem
        · exact hne (h.apart t' t id' hid' ht)
        · exact hnot hmem
      · rcases mem_concat.mp hr' with hr' | rfl
        · exact Or.inl hr'
        · exact Or.inr hr.2
  | untrack t id ht hmore => exact h.untrack t id trivial nofun
  | untrackLast t id ht hlast => exact h.untrack t id trivial nofun
  | drainLock t ht hfree => exact h.lock t hfree rfl nofun
  | callLock t p before ht hfree =>
    have hr := h.at ht
    exact h.lock t hfree ⟨rfl, hr⟩ nofun
  | drainPass t ht hreaders =>
    have hlock := h.at ht
    unfold release
    exact h.hold t hlock hshared.listed hshared.removed trivial nofun
  | drainSweep t ht hreaders =>
    have hlock := h.at ht
    unfold sweep
    refine h.hold t hlock (nofun) hshared.removed ⟨hlock, rfl, fun o ho => ?_,
      nofun⟩ nofun
    -- no reader at all is tracked
    refine ⟨hshared.listed o ho, fun r _ hr => ?_⟩
    have hr : r ∈ s.trackedReaders := hr
    rw [hreaders] at hr
    cases hr
  | callLook t p before ht =>
    have hr := h.at ht
    refine h.act t rfl hshared (fun t' _ => Spares.refl t' s) ⟨hr.1, hr.2, fun hpresent => ?_⟩
      nofun
    have hreaders : s.trackedReaders = [] := by
      cases hrs : s.trackedReaders with
      | nil => rfl
      | cons r rest =>
        rw [hrs] at hpresent
        cases hpresent
    have hgone : ∀ before, s.Gone before := by
      intro before r _ hr
      rw [hreaders] at hr
      cases hr
    exact ⟨hgone before, fun o _ => hgone o.before⟩
  | callDefer t p before ht =>
    have hr := h.at ht
    unfold release
    exact h.hold t hr.1 (recorded_listed hr.2.1 hshared.listed) hshared.removed trivial
      nofun
  | callSweep t p before ht =>
    obtain ⟨hlock, hasked, hgone⟩ := h.at ht
    obtain ⟨hbefore, hlist⟩ := hgone rfl
    unfold sweep
    refine h.hold t hlock (nofun) hshared.removed ⟨hlock, rfl, fun o ho => ?_,
      nofun⟩ nofun
    exact ⟨recorded_listed hasked hshared.listed o ho, recorded_gone hbefore hlist o ho⟩
  | refuse t kept o todo e ht hactive =>
    obtain ⟨hlock, hempty, hgood, hrefused⟩ := h.at ht
    refine h.act t rfl hshared (fun t' _ => Spares.refl t' s) ⟨hlock, hempty, fun o' ho' => ?_, ?_⟩
      nofun
    · have hmem := hgood o (mem_append_right _ mem_cons_self)
      rcases mem_append.mp ho' with ho' | ho'
      · rcases mem_concat.mp ho' with ho' | rfl
        · exact hgood o' (mem_append_left _ ho')
        · exact hmem
      · exact hgood o' (mem_append_right _ (mem_cons_of_mem _ ho'))
    · intro o' ho'
      rcases mem_append.mp ho' with ho' | ho'
      · exact hrefused o' ho'
      · rw [mem_singleton.mp ho']
  | allow t kept o todo e ht hactive =>
    obtain ⟨hlock, hempty, hgood, hrefused⟩ := h.at ht
    exact h.act t rfl hshared (fun t' _ => Spares.refl t' s)
      ⟨hlock, hempty, hgood, hrefused, hactive⟩
      nofun
  | remove t kept o todo e ht =>
    obtain ⟨hlock, hempty, hgood, hrefused, hactive⟩ := h.at ht
    refine h.hold t hlock hshared.listed (fun x hx => ?_)
      ⟨hlock, hempty, fun o' ho' => ?_, hrefused⟩
      nofun
    · rcases mem_concat.mp hx with hx | rfl
      · exact hshared.removed x hx
      · obtain ⟨hasked, hgone⟩ := hgood o (mem_append_right _ mem_cons_self)
        exact ⟨hasked.2.2, hgone, hactive⟩
    · rcases mem_append.mp ho' with ho' | ho'
      · exact hgood o' (mem_append_left _ ho')
      · exact hgood o' (mem_append_right _ (mem_cons_of_mem _ ho'))
  | finish t kept e ht =>
    have hr := h.at ht
    unfold release
    exact h.hold t hr.1 (fun o ho => (hr.2.2.1 o (mem_append_left _ ho)).1) hshared.removed
      trivial nofun

end Moves

/-! ## §2. No call is forgotten -/

/-- The entries in the hand of whoever holds the lock. -/
def inHand (s : Registry T) : List Obligation :=
  s.locked.elim [] fun t => (s.phase t).obligations


/-- The entries that are recorded, listed or in hand. -/
def pool (s : Registry T) : List Obligation := s.pendingKeyRetirements ++ s.inHand

/-- The call is under way, or an entry covers it, or a key was removed for it since. -/
def Answers (s : Registry T) (a : Ask) : Prop :=
  (∃ t, (s.phase t).Asks a) ∨ (∃ o ∈ s.pool, o.Covers a)
    ∨ ∃ x ∈ s.removals.drop a.since, x.obligation.Covers a

/-- Every retirement that was asked for is accounted for. -/
def Honoured (s : Registry T) : Prop := ∀ a ∈ s.asked, a.since ≤ s.removals.length ∧ s.Answers a

/-- What is recorded covers the call, and what was covered stays so. -/
theorem recorded_covers {p : PendingKeyRetirement} {before : List Nat} {a : Ask}
    (h : (p = a.pending ∧ before = a.before) ∨ ∃ o ∈ s.pendingKeyRetirements, o.Covers a) :
    ∃ o ∈ s.recorded p before, o.Covers a := by
  unfold recorded
  split_ifs with hany
  · obtain ⟨o, ho, hcovers⟩ : ∃ o ∈ s.pendingKeyRetirements, o.Covers a
        ∨ o.pending = a.pending ∧ p = a.pending ∧ before = a.before := by
      rcases h with ⟨hp, hbefore⟩ | ⟨o, ho, hcovers⟩
      · obtain ⟨o, ho, hpending⟩ := any_eq_true.mp hany
        exact ⟨o, ho, Or.inr ⟨(of_decide_eq_true hpending).trans hp, hp, hbefore⟩⟩
      · exact ⟨o, ho, Or.inl hcovers⟩
    refine ⟨_, mem_map_of_mem ho, ?_⟩
    rcases hcovers with ⟨hpending, hsub⟩ | ⟨hpending, rfl, rfl⟩
    · split_ifs
      · exact ⟨hpending, fun r hr => mem_append_left _ (hsub hr)⟩
      · exact ⟨hpending, hsub⟩
    · rw [if_pos hpending]
      exact ⟨hpending, subset_append_right _ _⟩
  · rcases h with ⟨rfl, rfl⟩ | ⟨o, ho, hcovers⟩
    · exact ⟨_, mem_append_right _ (mem_singleton_self _), rfl, fun _ h => h⟩
    · exact ⟨o, mem_append_left _ ho, hcovers⟩

theorem pool_of_locked {t : T} (h : s.locked = some t) :
    s.pool = s.pendingKeyRetirements ++ (s.phase t).obligations := by
  unfold pool inHand
  rw [h]
  rfl

theorem pool_of_free (h : s.locked = none) : s.pool = s.pendingKeyRetirements := by
  unfold pool inHand
  rw [h]
  exact append_nil _

theorem Answers.of_entry {o : Obligation} {a : Ask} (ho : o ∈ s.pool) (h : o.Covers a) :
    s.Answers a :=
  Or.inr (Or.inl ⟨o, ho, h⟩)

section Calls

variable [DecidableEq T] {t : T} {p q : RetirePhase} {u : Registry T} {a : Ask}

theorem inHand_goto (h : p.obligations = (s.phase t).obligations) :
    (s.goto t p).inHand = s.inHand := by
  unfold inHand goto
  dsimp only
  cases s.locked with
  | none => rfl
  | some t' =>
    show (Function.update s.phase t p t').obligations = (s.phase t').obligations
    by_cases ht : t' = t
    · rw [ht, Function.update_self, h]
    · rw [Function.update_of_ne ht]

theorem Answers.of_phase (h : p.Asks a) : (s.goto t p).Answers a := by
  refine Or.inl ⟨t, ?_⟩
  show (Function.update s.phase t p t).Asks a
  rw [Function.update_self]
  exact h

/-- **One thread acts**: what it was asked and the entries it had at hand are still
    answered for, and so is everything else. -/
theorem Honoured.act (h : s.Honoured) (hphase : u.phase = s.phase)
    (hasked : ∀ a ∈ u.asked, a ∈ s.asked ∨ a.since ≤ s.removals.length ∧ p.Asks a)
    (hremovals : s.removals <+: u.removals)
    (hask : ∀ a, (s.phase t).Asks a → (u.goto t p).Answers a)
    (hpool : ∀ o ∈ s.pool, ∀ a, o.Covers a → a.since ≤ s.removals.length →
      (u.goto t p).Answers a) :
    (u.goto t p).Honoured := by
  intro a ha
  rcases hasked a ha with hold | ⟨hsince, hnew⟩
  · obtain ⟨hsince, hanswers⟩ := h a hold
    refine ⟨hsince.trans hremovals.length_le, ?_⟩
    rcases hanswers with ⟨t', ht'⟩ | ⟨o, ho, hcovers⟩ | ⟨x, hx, hcovers⟩
    · by_cases heq : t' = t
      · exact hask a (heq ▸ ht')
      · refine Or.inl ⟨t', ?_⟩
        show (Function.update u.phase t p t').Asks a
        rw [Function.update_of_ne heq, hphase]
        exact ht'
    · exact hpool o ho a hcovers hsince
    · exact Or.inr (Or.inr ⟨x, (hremovals.drop a.since).subset hx, hcovers⟩)
  · exact ⟨hsince.trans hremovals.length_le, .of_phase hnew⟩

/-- A thread goes on with the same entries in hand. -/
theorem Honoured.goto (h : s.Honoured) (ht : s.phase t = q) (hphase : u.phase = s.phase)
    (hasked : ∀ a ∈ u.asked, a ∈ s.asked ∨ a.since ≤ s.removals.length ∧ p.Asks a)
    (hremovals : u.removals = s.removals) (hpool : u.pool = s.pool)
    (hask : ∀ a, q.Asks a → p.Asks a) (hp : p.obligations = q.obligations) :
    (u.goto t p).Honoured := by
  subst ht
  refine h.act hphase hasked (hremovals ▸ prefix_refl _) (fun a ha => .of_phase (hask a ha))
    fun o ho a hcovers _ => .of_entry ?_ hcovers
  rw [← hpool] at ho
  unfold pool at *
  rw [inHand_goto (by rw [hphase]; exact hp)]
  exact ho

/-- The holder of the lock goes on with other entries in the list or in hand. -/
theorem Honoured.hold (h : s.Honoured) (hlock : s.locked = some t) (ht : s.phase t = q)
    (hphase : u.phase = s.phase) (hasked : u.asked = s.asked)
    (hremovals : s.removals <+: u.removals) (hask : ∀ a, q.Asks a → (u.goto t p).Answers a)
    (hpool : ∀ o ∈ s.pendingKeyRetirements ++ q.obligations, ∀ a, o.Covers a →
      a.since ≤ s.removals.length → (u.goto t p).Answers a) : (u.goto t p).Honoured := by
  subst ht
  rw [← pool_of_locked hlock] at hpool
  exact h.act hphase (fun a ha => Or.inl (hasked ▸ ha)) hremovals hask hpool

/-- The holder of the lock records what it was asked. -/
theorem Honoured.record {q : PendingKeyRetirement} {before : List Nat} {present : Bool}
    (h : s.Honoured) (hlock : s.locked = some t) (ht : s.phase t = .callDecided q before present)
    (hphase : u.phase = s.phase) (hasked : u.asked = s.asked) (hremovals : u.removals = s.removals)
    (hkept : ∀ o ∈ s.recorded q before, ∀ a, o.Covers a → (u.goto t p).Answers a) :
    (u.goto t p).Honoured := by
  have hcovered : ∀ a : Ask, (q = a.pending ∧ before = a.before)
      ∨ (∃ o ∈ s.pendingKeyRetirements, o.Covers a) → (u.goto t p).Answers a := by
    intro a ha
    obtain ⟨o, ho, hcovers⟩ := recorded_covers ha
    exact hkept o ho a hcovers
  refine h.hold hlock ht hphase hasked (hremovals ▸ prefix_refl _)
    (fun a ha => hcovered a (Or.inl ha)) fun o ho a hcovers _ => hcovered a (Or.inr ⟨o, ?_, hcovers⟩)
  simpa [RetirePhase.obligations] using ho

theorem Honoured.lock (h : s.Honoured) (ht : s.phase t = q) (hfree : s.locked = none)
    (hask : ∀ a, q.Asks a → p.Asks a) :
    (Registry.goto { s with locked := some t } t p).Honoured := by
  subst ht
  refine h.act rfl (fun a ha => Or.inl ha) (prefix_refl _) (fun a ha => .of_phase (hask a ha))
    fun o ho a hcovers _ => .of_entry ?_ hcovers
  rw [pool_of_free hfree] at ho
  exact mem_append_left _ ho

/-- What the holder of the lock has in hand. -/
theorem Answers.of_hand {o : Obligation} (hlock : s.locked = some t) (ho : o ∈ p.obligations)
    (h : o.Covers a) : (s.goto t p).Answers a := by
  refine .of_entry ?_ h
  rw [pool_of_locked (show (s.goto t p).locked = some t from hlock)]
  show o ∈ s.pendingKeyRetirements ++ (Function.update s.phase t p t).obligations
  rw [Function.update_self]
  exact mem_append_right _ ho

/-- **Every move keeps every call answered for.** -/
theorem Honoured.move (h : s.Honoured) (hs : s.Sound) (hm : s.Move s') : s'.Honoured := by
  cases hm with
  | stay => exact h
  | activate epoch hepoch => exact h
  | takeId t ht =>
    exact h.goto (u := { s with readerSeq := s.readerSeq + 1 }) ht rfl (fun _ => Or.inl) rfl rfl
      (fun _ => False.elim) rfl
  | leave t id ht =>
    exact h.goto ht rfl (fun _ => Or.inl) rfl rfl (fun _ => False.elim) rfl
  | call t p ht hp =>
    refine h.goto (u := s.ask p) ht rfl (fun a ha => ?_) rfl rfl (fun _ => False.elim) rfl
    rcases mem_concat.mp ha with ha | rfl
    · exact Or.inl ha
    · exact Or.inr ⟨Nat.le_refl _, rfl, rfl⟩
  | track t id ht =>
    exact h.goto (u := { s with
        trackedReaders := s.trackedReaders ++ [id], seen := id :: s.seen }) ht rfl
      (fun _ => Or.inl) rfl rfl (fun _ => False.elim) rfl
  | untrack t id ht hmore =>
    exact h.goto (u := { s with trackedReaders := s.trackedReaders.erase id }) ht rfl
      (fun _ => Or.inl) rfl rfl (fun _ => False.elim) rfl
  | untrackLast t id ht hlast =>
    exact h.goto (u := { s with trackedReaders := s.trackedReaders.erase id }) ht rfl
      (fun _ => Or.inl) rfl rfl (fun _ => False.elim) rfl
  | drainLock t ht hfree => exact h.lock ht hfree fun _ => False.elim
  | callLock t p before ht hfree => exact h.lock ht hfree fun _ ha => ha
  | callLook t p before ht =>
    exact h.goto ht rfl (fun _ => Or.inl) rfl rfl (fun _ ha => ha) rfl
  | drainPass t ht hreaders =>
    have hlock := hs.at ht
    refine h.hold hlock ht rfl rfl (prefix_refl _) (fun _ => False.elim)
      fun o ho a hcovers _ => .of_entry (mem_append_left _ ?_) hcovers
    have ho : o ∈ s.pendingKeyRetirements := by simpa [RetirePhase.obligations] using ho
    exact ho
  | drainSweep t ht hreaders =>
    have hlock := hs.at ht
    refine h.hold hlock ht rfl rfl (prefix_refl _) (fun _ => False.elim)
      fun o ho a hcovers _ => .of_hand hlock ?_ hcovers
    simpa [RetirePhase.obligations] using ho
  | callDefer t p before ht =>
    refine h.record (hs.at ht).1 ht rfl rfl rfl fun o ho a hcovers => ?_
    exact .of_entry (mem_append_left _ ho) hcovers
  | callSweep t p before ht =>
    have hlock := (hs.at ht).1
    exact h.record hlock ht rfl rfl rfl fun o ho a hcovers => .of_hand hlock ho hcovers
  | refuse t kept o todo e ht hactive =>
    have hr := hs.at ht
    refine h.hold hr.1 ht rfl rfl (prefix_refl _) (fun _ => False.elim)
      fun o' ho' a hcovers _ => ?_
    rw [hr.2.1, nil_append] at ho'
    -- an entry that was refused covers what it did
    rcases mem_append.mp ho' with hkept | hrest
    · exact .of_hand hr.1 (mem_append_left _ (mem_append_left _ hkept)) hcovers
    rcases mem_cons.mp hrest with rfl | htodo
    · exact .of_hand hr.1 (mem_append_left _ (mem_append_right _ (mem_singleton_self _))) hcovers
    · exact .of_hand hr.1 (mem_append_right _ htodo) hcovers
  | allow t kept o todo e ht hactive =>
    exact h.goto ht rfl (fun _ => Or.inl) rfl rfl (fun _ => False.elim) rfl
  | remove t kept o todo e ht =>
    have hr := hs.at ht
    refine h.hold (u := { s with
        removals := s.removals ++ [⟨o, s.trackedReaders, s.activeEpoch⟩] }) hr.1 ht rfl rfl
      (prefix_append _ _) (fun _ => False.elim) fun o' ho' a hcovers hsince => ?_
    rw [hr.2.1, nil_append] at ho'
    rcases mem_append.mp ho' with hkept | hrest
    · exact .of_hand hr.1 (mem_append_left _ hkept) hcovers
    rcases mem_cons.mp hrest with rfl | htodo
    · refine Or.inr (Or.inr ⟨⟨_, s.trackedReaders, s.activeEpoch⟩, ?_, hcovers⟩)
      show _ ∈ (s.removals ++ [_]).drop a.since
      rw [drop_append_of_le_length hsince]
      exact mem_append_right _ (mem_singleton_self _)
    · exact .of_hand hr.1 (mem_append_right _ htodo) hcovers
  | finish t kept e ht =>
    have hr := hs.at ht
    refine h.hold hr.1 ht rfl rfl (prefix_refl _) (fun _ => False.elim)
      fun o ho a hcovers _ => .of_entry (mem_append_left _ ?_) hcovers
    rw [hr.2.1, nil_append] at ho
    have ho : o ∈ kept := by simpa [RetirePhase.obligations] using ho
    exact ho

end Calls

/-! ## §3. No obligation waits for nobody -/

end Registry

/-- The thread is going to try what is recorded, or to look whether it should. -/
def RetirePhase.attends : RetirePhase → Bool
  | .draining | .drainLocked => true
  | .callDecided _ _ present => !present
  | _ => false

namespace Registry

variable {s s' : Registry T}

/-- A reader is there to drain when it leaves, or a thread is at it. -/
def Watched (s : Registry T) : Prop :=
  s.trackedReaders ≠ [] ∨ ∃ t, (s.phase t).attends = true

/-- A reader is there to drain when it leaves, or one has left. -/
def Promised (s : Registry T) : Prop := s.trackedReaders ≠ [] ∨ ∃ t, s.phase t = .draining

/-- What was not tried has someone to try it; so will have what a thread is about to
    record because of a reader. -/
structure Owed (s : Registry T) : Prop where
  watched : (∃ o ∈ s.pendingKeyRetirements, o.refused = false) → s.Watched
  promised : ∀ t p before, s.phase t = .callDecided p before true → s.Promised

theorem Promised.watched (h : s.Promised) : s.Watched := by
  rcases h with hreaders | ⟨t, ht⟩
  · exact Or.inl hreaders
  · refine Or.inr ⟨t, ?_⟩
    rw [ht]
    rfl

theorem Owed.of_promised (h : s.Promised) : s.Owed := ⟨fun _ => h.watched, fun _ _ _ _ => h⟩

section Owes

variable [DecidableEq T] {t : T} {p : RetirePhase} {s₁ : Registry T}

theorem Watched.goto (h : s.Watched) (hphase : s₁.phase = s.phase)
    (hreaders : s.trackedReaders ≠ [] → s₁.trackedReaders ≠ [])
    (ht : (s.phase t).attends = true → p.attends = true) : (s₁.goto t p).Watched := by
  rcases h with h | ⟨t', ht'⟩
  · exact Or.inl (hreaders h)
  · refine Or.inr ⟨t', ?_⟩
    show (Function.update s₁.phase t p t').attends = true
    by_cases heq : t' = t
    · rw [heq, Function.update_self]
      exact ht (heq ▸ ht')
    · rw [Function.update_of_ne heq, hphase]
      exact ht'

theorem Promised.goto (h : s.Promised) (hphase : s₁.phase = s.phase)
    (hreaders : s.trackedReaders ≠ [] → s₁.trackedReaders ≠ [])
    (ht : s.phase t ≠ .draining) : (s₁.goto t p).Promised := by
  rcases h with h | ⟨t', ht'⟩
  · exact Or.inl (hreaders h)
  · refine Or.inr ⟨t', ?_⟩
    show Function.update s₁.phase t p t' = .draining
    have heq : t' ≠ t := fun heq => ht (heq ▸ ht')
    rw [Function.update_of_ne heq, hphase]
    exact ht'

/-- A thread that does not watch, and records nothing, goes on. -/
theorem Owed.goto (h : s.Owed) (s₁ : Registry T) (hphase : s₁.phase = s.phase)
    (hreaders : s₁.trackedReaders = s.trackedReaders)
    (hlist : s₁.pendingKeyRetirements = s.pendingKeyRetirements)
    (ht : (s.phase t).attends = false)
    (hp : ∀ q before, p = .callDecided q before true → s₁.trackedReaders ≠ []) :
    (s₁.goto t p).Owed := by
  have hkeep : s.trackedReaders ≠ [] → s₁.trackedReaders ≠ [] := fun hne => hreaders ▸ hne
  constructor
  · intro hsome
    have hsome : ∃ o ∈ s₁.pendingKeyRetirements, o.refused = false := hsome
    rw [hlist] at hsome
    exact (h.watched hsome).goto hphase hkeep fun htrue => by rw [ht] at htrue; cases htrue
  · intro t' q before hq
    have hq : Function.update s₁.phase t p t' = .callDecided q before true := hq
    by_cases heq : t' = t
    · rw [heq, Function.update_self] at hq
      exact Or.inl (hp q before hq)
    · rw [Function.update_of_ne heq, hphase] at hq
      refine (h.promised t' q before hq).goto hphase hkeep fun hdraining => ?_
      rw [hdraining] at ht
      cases ht

/-- While a thread holds the lock, or takes it, no other decides. -/
theorem Owed.hold (hs : s.Sound) (hlock : s.locked = none ∨ s.locked = some t)
    (hphase : s₁.phase = s.phase) (hp : ∀ q before, p ≠ .callDecided q before true)
    (hw : (∃ o ∈ s₁.pendingKeyRetirements, o.refused = false) → (s₁.goto t p).Watched) :
    (s₁.goto t p).Owed := by
  refine ⟨hw, fun t' q before hq => ?_⟩
  have hq : Function.update s₁.phase t p t' = .callDecided q before true := hq
  by_cases heq : t' = t
  · rw [heq, Function.update_self] at hq
    exact absurd hq (hp q before)
  · rw [Function.update_of_ne heq, hphase] at hq
    have hholder := (hs.at hq).1
    rcases hlock with hfree | hlock
    · rw [hfree] at hholder
      cases hholder
    · exact absurd (Option.some.inj (hholder.symm.trans hlock)) heq

/-- **Every move keeps someone at it.** -/
theorem Owed.move (h : s.Owed) (hs : s.Sound) (hm : s.Move s') : s'.Owed := by
  cases hm with
  | stay => exact h
  | activate epoch hepoch => exact ⟨h.watched, h.promised⟩
  | takeId t ht =>
    exact h.goto { s with readerSeq := s.readerSeq + 1 } rfl rfl rfl (by rw [ht]; rfl)
      nofun
  | leave t id ht => exact h.goto s rfl rfl rfl (by rw [ht]; rfl) nofun
  | call t p ht hp => exact h.goto (s.ask p) rfl rfl rfl (by rw [ht]; rfl) nofun
  | track t id ht => exact .of_promised (Or.inl (append_ne_nil_of_right_ne_nil _ (by simp)))
  | untrack t id ht hmore => exact .of_promised (Or.inl hmore)
  | untrackLast t id ht hlast => exact .of_promised (Or.inr ⟨t, Function.update_self t _ _⟩)
  | drainLock t ht hfree =>
    refine .hold hs (Or.inl hfree) rfl (nofun) fun hsome => ?_
    exact (h.watched hsome).goto rfl (fun h => h) fun _ => rfl
  | drainPass t ht hreaders => exact .of_promised (Or.inl hreaders)
  | drainSweep t ht hreaders =>
    have hlock := hs.at ht
    exact .hold hs (Or.inr hlock) rfl (nofun) fun ⟨o, ho, _⟩ => by cases ho
  | callLock t p before ht hfree =>
    exact h.goto { s with locked := some t } rfl rfl rfl (by rw [ht]; rfl)
      nofun
  | callLook t p before ht =>
    refine h.goto s rfl rfl rfl (by rw [ht]; rfl) fun q before' heq hempty => ?_
    rw [hempty] at heq
    cases heq
  | callDefer t p before ht =>
    refine .of_promised ((h.promised t p before ht).goto rfl (fun h => h) ?_)
    rw [ht]
    exact nofun
  | callSweep t p before ht =>
    exact .hold hs (Or.inr (hs.at ht).1) rfl (nofun) fun ⟨o, ho, _⟩ => by cases ho
  | refuse t kept o todo e ht hactive =>
    exact h.goto s rfl rfl rfl (by rw [ht]; rfl) nofun
  | allow t kept o todo e ht hactive =>
    exact h.goto s rfl rfl rfl (by rw [ht]; rfl) nofun
  | remove t kept o todo e ht =>
    exact h.goto { s with removals := s.removals ++ [⟨o, s.trackedReaders, s.activeEpoch⟩] }
      rfl rfl rfl (by rw [ht]; rfl) nofun
  | finish t kept e ht =>
    have hr := hs.at ht
    refine .hold hs (Or.inr hr.1) rfl (nofun) fun ⟨o, ho, hfalse⟩ => ?_
    rw [hr.2.2.2 o ho] at hfalse
    cases hfalse

end Owes

/-! ## §4. Every interleaving -/

theorem owed_opened (activeEpoch cipherId : Nat) :
    (opened activeEpoch cipherId : Registry T).Owed where
  watched := fun ⟨_, ho, _⟩ => (by cases ho)
  promised := nofun

section Runs

variable [DecidableEq T]

theorem move_cipherId (hm : s.Move s') : s'.cipherId = s.cipherId := by
  cases hm <;> rfl

/-- The registry behind every run of the system. -/
theorem run_sound (activeEpoch cipherId : Nat) (events : List (RetireEvent T)) :
    let s := Lib.run step (opened activeEpoch cipherId) events
    s.Sound ∧ s.Honoured ∧ s.Owed ∧ s.cipherId = cipherId := by
  refine Lib.run_invariant (I := fun s : Registry T => s.Sound ∧ s.Honoured ∧ s.Owed
    ∧ s.cipherId = cipherId) ?_ events _ ⟨sound_opened activeEpoch cipherId,
      fun _ h => absurd h not_mem_nil, owed_opened activeEpoch cipherId, rfl⟩
  rintro s e ⟨hs, hcalls, howed, hcipher⟩
  have hm := s.step_moves e
  exact ⟨hs.move hm, hcalls.move hs hm, howed.move hs hm, (move_cipherId hm).trans hcipher⟩

end Runs

/-- With no call under way, no entry is in hand. -/
theorem inHand_of_idle (h : ∀ t, s.phase t = .idle) : s.inHand = [] := by
  unfold inHand
  cases s.locked with
  | none => rfl
  | some t =>
    show (s.phase t).obligations = []
    rw [h]
    rfl

/-- With no reader tracked either, every entry of the list was tried in vain. -/
theorem Owed.refused (h : s.Owed) (hreaders : s.trackedReaders = []) (hidle : ∀ t, s.phase t = .idle)
    {o : Obligation} (ho : o ∈ s.pendingKeyRetirements) : o.refused = true := by
  by_contra hrefused
  rcases h.watched ⟨o, ho, Bool.not_eq_true _ ▸ hrefused⟩ with hne | ⟨t, ht⟩
  · exact hne hreaders
  · rw [hidle] at ht
    cases ht

end Registry

/-- **Key retirement waits for readers and is never forgotten.**  Behind every
    interleaving of reader registrations and departures, retirements, drains and
    rekeys:

    * whatever key was removed had been asked for, none of the readers that were tracked
      at that call was tracked any more, and the key was not the active one;
    * every retirement that was ever asked for is with the thread that was asked, or an
      entry waits for its readers, in the list or in the hand of the thread that holds
      the list's lock, or its key was removed since;
    * with no call under way, for every retirement that was ever asked for its key was
      removed since, when none of the readers tracked at the call was left, or the list
      has an entry for it that waits for those readers; with no reader tracked, that
      entry was refused when it was last tried. -/
theorem retirement_waits_and_is_never_forgotten {T : Type} [DecidableEq T]
    (activeEpoch cipherId : Nat) (events : List (RetireEvent T)) :
    let s : Registry T := Lib.run Registry.step (.opened activeEpoch cipherId) events
    (∀ x ∈ s.removals,
        (∃ a ∈ s.asked, a.pending = x.obligation.pending ∧ a.before ⊆ x.obligation.before)
        ∧ (∀ r ∈ x.obligation.before, r ∉ x.tracked)
        ∧ ¬ (x.obligation.pending.epoch = x.active ∧ x.obligation.pending.cipherId = cipherId))
      ∧ (∀ a ∈ s.asked, (∃ t, (s.phase t).Asks a)
        ∨ (∃ o ∈ s.pendingKeyRetirements ++ s.inHand, o.Covers a)
        ∨ ∃ x ∈ s.removals.drop a.since, x.obligation.Covers a)
      ∧ ((∀ t, s.phase t = .idle) → ∀ a ∈ s.asked,
        (∃ x ∈ s.removals.drop a.since, x.obligation.pending = a.pending
            ∧ ∀ r ∈ a.before, r ∉ x.tracked)
          ∨ ∃ o ∈ s.pendingKeyRetirements, o.pending = a.pending ∧ a.before ⊆ o.before
            ∧ (s.trackedReaders = [] → o.refused = true)) := by
  intro s
  obtain ⟨hs, hcalls, howed, hcipher⟩ := Registry.run_sound (T := T) activeEpoch cipherId events
  refine ⟨fun x hx => ?_, fun a ha => (hcalls a ha).2, fun hidle a ha => ?_⟩
  · rw [← hcipher]
    exact hs.shared.removed x hx
  rcases (hcalls a ha).2 with ⟨t, ht⟩ | ⟨o, ho, hpending, hbefore⟩ | ⟨x, hx, hpending, hbefore⟩
  · rw [hidle] at ht
    exact ht.elim
  · have ho : o ∈ s.pendingKeyRetirements ++ s.inHand := ho
    rw [Registry.inHand_of_idle hidle, append_nil] at ho
    exact Or.inr ⟨o, ho, hpending, hbefore, fun hreaders => howed.refused hreaders hidle ho⟩
  · have hwaited := (hs.shared.removed x (mem_of_mem_drop hx)).2.1
    exact Or.inl ⟨x, hx, hpending, fun r hr => hwaited r (hbefore hr)⟩

/-- The last reader leaves while the retirement of a source key is being deferred behind
    that of the active key; its drain removes the one and is refused the other. -/
def drainedEvents : List (RetireEvent Bool) :=
  [.start true .register, .advance true, .start false (.retire ⟨1, 0⟩), .advance false,
    .advance false, .advance false, .start false (.retire ⟨0, 0⟩), .advance false, .advance false,
    .start true (.unregister 0), .advance true, .advance true, .advance false, .advance true,
    .advance true, .advance true, .advance true, .advance true, .advance true]

theorem retirement_waits_and_is_never_forgotten_drained :
    let s : Registry Bool := Lib.run Registry.step (.opened 1 0) drainedEvents
    s.asked = [⟨⟨1, 0⟩, [0], 0⟩, ⟨⟨0, 0⟩, [0], 0⟩] ∧ (∀ t, s.phase t = .idle)
      ∧ (∃ x ∈ s.removals, x.obligation.pending = ⟨0, 0⟩ ∧ 0 ∉ x.tracked)
      ∧ ∃ o ∈ s.pendingKeyRetirements, o.pending = ⟨1, 0⟩ ∧ o.refused = true := by
  intro s
  have hasked : s.asked = [⟨⟨1, 0⟩, [0], 0⟩, ⟨⟨0, 0⟩, [0], 0⟩] := by decide +kernel
  have hidle : ∀ t, s.phase t = .idle := by decide +kernel
  have hcalls := (retirement_waits_and_is_never_forgotten 1 0 drainedEvents).2.2 hidle
  refine ⟨hasked, hidle, ?_, ?_⟩
  · rcases hcalls ⟨⟨0, 0⟩, [0], 0⟩ (by rw [show s.asked = _ from hasked]; decide) with
      ⟨x, hx, hpending, hgone⟩ | ⟨o, ho, hpending, -⟩
    · exact ⟨x, hx, hpending, hgone 0 (mem_singleton_self 0)⟩
    · exact absurd hpending ((by decide +kernel : ∀ o ∈ s.pendingKeyRetirements,
        o.pending ≠ ⟨0, 0⟩) o ho)
  · rcases hcalls ⟨⟨1, 0⟩, [0], 0⟩ (by rw [show s.asked = _ from hasked]; decide) with
      ⟨x, hx, hpending, -⟩ | ⟨o, ho, hpending, -, hrefused⟩
    · exact absurd hpending ((by decide +kernel : ∀ x ∈ s.removals,
        x.obligation.pending ≠ ⟨1, 0⟩) x hx)
    · exact ⟨o, ho, hpending, hrefused (by decide +kernel)⟩

end Pagedb
