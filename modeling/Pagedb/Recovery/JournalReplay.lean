/-
  Pagedb.Recovery.JournalReplay — replay of the apply journal's file actions
  (`txn/db/segment.rs`: `reconcile_journal_actions`, `promote_segment`,
  `tombstone_segment`).

  An attempt runs the whole list from its start, and a crash or an I/O error may
  stop it before any rename or remove.  It runs on a handle that has just opened:
  no reader is tracked, and its deferred queue has nothing to drain.

  Main results:
    * `replayActions_eq` — an attempt that nothing stops is `apply_segment_effects`;
    * `journal_replay_converges`.
-/
import Pagedb.Lib.Exec
import Pagedb.Txn.Segment

namespace Pagedb

open Lib List

/-! ## §1. Attempts -/

/-- `JournalAction`. -/
inductive JournalAction (ι : Type) where
  | promote (segmentId : ι)
  | tombstone (segmentId : ι) (tombstoneCommitId : CommitId)
  deriving DecidableEq, Repr

def JournalAction.segmentId {ι : Type} : JournalAction ι → ι
  | .promote id => id
  | .tombstone id _ => id

inductive ReplayStop where
  | interrupted
  | failed (e : SegmentError)
  deriving DecidableEq, Repr

/-- The files, and how many renames and removes are left before the attempt is
    interrupted; `none` when it is not. -/
structure Attempt where
  files : SegmentFiles
  steps : Option Nat
  deriving DecidableEq, Repr

abbrev ReplayM := EStateM ReplayStop Attempt

/-- The existence checks, which read the files. -/
def look : ReplayM SegmentFiles := fun a => .ok a.files a

/-- One rename or remove. -/
def fileStep (f : SegmentFiles → SegmentFiles) : ReplayM Unit := do
  let a ← get
  match a.steps with
  | some 0 => throw .interrupted
  | steps => set (Attempt.mk (f a.files) (steps.map (· - 1)))

/-- `vfs.rename(live, tomb)`. -/
def SegmentFiles.park (f : SegmentFiles) (id : SegmentId) (commit : CommitId) : SegmentFiles :=
  { f.retire id with tombstones := (id, commit) :: f.tombstones }

/-- `vfs.remove(tomb)`. -/
def SegmentFiles.unpark (f : SegmentFiles) (id : SegmentId) (commit : CommitId) : SegmentFiles :=
  { f with tombstones := f.tombstones.filter (· ≠ (id, commit)) }

-- the test for a parked file compares pairs of an id and a commit
local instance instLawfulParked : LawfulBEq (SegmentId × CommitId) := inferInstance

/-- `promote_segment` and, with no reader, `tombstone_segment`. -/
def replayAction : JournalAction SegmentId → ReplayM Unit
  | .promote id => do
    let files ← look
    if id ∈ files.live then pure ()
    else if id ∉ files.staging then throw (.failed (.stagingMissing id))
    else fileStep (·.publish id)
  | .tombstone id commit => do
    let files ← look
    if (id, commit) ∈ files.tombstones then fileStep (·.unpark id commit)
    else if id ∉ files.live then pure ()
    else do
      fileStep (·.park id commit)
      fileStep (·.unpark id commit)

/-- `apply_segment_effects` on the actions of a journal. -/
def replayActions : List (JournalAction SegmentId) → ReplayM Unit
  | [] => pure ()
  | a :: actions => do
    replayAction a
    replayActions actions

/-- The files an attempt leaves that is stopped after `steps` renames and removes. -/
def filesAfter (actions : List (JournalAction SegmentId)) (files : SegmentFiles) (steps : Nat) :
    SegmentFiles :=
  match replayActions actions ⟨files, some steps⟩ with
  | .ok _ a => a.files
  | .error _ a => a.files

/-! ## §2. Attempts that nothing stops -/

/-- What `reconcile_journal_actions` makes of an action. -/
def JournalAction.effect : JournalAction SegmentId → SegmentSideEffect
  | .promote id => .promote id
  | .tombstone id commit => .tombstone id (some commit)

/-- How an attempt ends that nothing stops. -/
def replayed : SegmentStore × Except SegmentError SegmentReconciliation →
    EStateM.Result ReplayStop Attempt Unit
  | (s, .ok _) => .ok () ⟨s.files, none⟩
  | (s, .error e) => .error (.failed e) ⟨s.files, none⟩

theorem SegmentFiles.unpark_park {f : SegmentFiles} {id : SegmentId} {commit : CommitId}
    (h : (id, commit) ∉ f.tombstones) : (f.park id commit).unpark id commit = f.retire id := by
  have hkeep : f.tombstones.filter (· ≠ (id, commit)) = f.tombstones :=
    filter_eq_self.mpr fun x hx => decide_eq_true fun he => h (he ▸ hx)
  unfold SegmentFiles.unpark SegmentFiles.park SegmentFiles.retire
  rw [filter_cons_of_neg (by simp), hkeep]

theorem replayAction_tombstone (files : SegmentFiles) (id : SegmentId) (commit : CommitId) :
    ∃ files', tombstoneSegment (fun _ => false) ⟨files, []⟩ id commit = (⟨files', []⟩, .complete)
      ∧ replayAction (.tombstone id commit) ⟨files, none⟩ = .ok () ⟨files', none⟩ := by
  have hlook : look ⟨files, none⟩ = .ok files ⟨files, none⟩ := rfl
  unfold replayAction tombstoneSegment
  rw [if_neg Bool.false_ne_true]
  dsimp only
  rw [bind_of_ok hlook]
  split_ifs with hparked hlive
  · exact ⟨_, rfl, rfl⟩
  · refine ⟨_, rfl, ?_⟩
    rw [← SegmentFiles.unpark_park hparked]
    rfl
  · exact ⟨_, rfl, rfl⟩

theorem replayActions_eq_from (actions : List (JournalAction SegmentId)) :
    ∀ (files : SegmentFiles) (deferred : Bool), replayActions actions ⟨files, none⟩
      = replayed (applyEffectsFrom (fun _ => false) 0 (actions.map JournalAction.effect) ⟨files, []⟩
        deferred) := by
  induction actions with
  | nil => exact fun files deferred => rfl
  | cons a actions ih =>
    intro files deferred
    unfold replayActions
    rw [map_cons]
    cases a with
    | promote id =>
      unfold replayAction JournalAction.effect applyEffectsFrom promoteSegment
      rw [bind_assoc, bind_of_ok (show look ⟨files, none⟩ = .ok files ⟨files, none⟩ from rfl)]
      split_ifs with hlive hstaging
      · exact ih files deferred
      · exact ih (files.publish id) deferred
      · rfl
    | tombstone id commit =>
      obtain ⟨files', htombstone, hrun⟩ := replayAction_tombstone files id commit
      unfold JournalAction.effect applyEffectsFrom
      rw [bind_of_ok hrun, Option.getD_some, htombstone]
      exact ih files' _

/-- **An attempt that nothing stops is `apply_segment_effects`** with no reader to pin a
    file. -/
theorem replayActions_eq (actions : List (JournalAction SegmentId)) (files : SegmentFiles) :
    replayActions actions ⟨files, none⟩
      = replayed (applySegmentEffects (fun _ => false) (actions.map JournalAction.effect) 0
        ⟨files, []⟩) := by
  unfold applySegmentEffects
  split_ifs with hnil
  · rw [map_eq_nil_iff.mp hnil]
    rfl
  · exact replayActions_eq_from actions files false

/-! ## §3. What an action does -/

/-- The file an action starts from: a promoted id has exactly one of a staging and
    a live file, a tombstoned one a live file and no parked one. -/
def JournalAction.Ready (files : SegmentFiles) : JournalAction SegmentId → Prop
  | .promote id => (id ∈ files.live ↔ id ∉ files.staging)
  | .tombstone id _ => id ∈ files.live ∧ ∀ commit, (id, commit) ∉ files.tombstones

/-- The file an action ends with. -/
def JournalAction.Done (files : SegmentFiles) : JournalAction SegmentId → Prop
  | .promote id => id ∈ files.live ∧ id ∉ files.staging
  | .tombstone id _ => id ∉ files.live ∧ ∀ commit, (id, commit) ∉ files.tombstones

/-- What an action that is not interrupted does. -/
def JournalAction.settle (files : SegmentFiles) : JournalAction SegmentId → SegmentFiles
  | .promote id => if id ∈ files.live then files else files.publish id
  | .tombstone id _ => files.retire id

/-- The files part way through a list: between two actions, or with the next
    tombstone parked. -/
inductive Between : List (JournalAction SegmentId) → SegmentFiles → SegmentFiles → Prop
  | start {actions f} : Between actions f f
  | parked {id commit actions f} : Between (.tombstone id commit :: actions) f (f.park id commit)
  | next {a : JournalAction SegmentId} {actions f g} :
    Between actions (a.settle f) g → Between (a :: actions) f g

variable {a b : JournalAction SegmentId} {actions : List (JournalAction SegmentId)}
  {f g : SegmentFiles} {P : SegmentFiles → Prop}

theorem JournalAction.Ready.settle (h : a.Ready f) : a.Done (a.settle f) := by
  cases a <;> simp only [Ready, Done, JournalAction.settle, SegmentFiles.publish,
    SegmentFiles.retire] at * <;> grind

/-- An action on another id leaves the files of `a` alone. -/
theorem JournalAction.settle_other (h : b.segmentId ≠ a.segmentId) :
    (a.Ready f → a.Ready (b.settle f)) ∧ (a.Done f → a.Done (b.settle f)) := by
  cases a <;> cases b <;> simp only [Ready, Done, JournalAction.settle, SegmentFiles.publish,
    SegmentFiles.retire, JournalAction.segmentId] at * <;> grind

theorem JournalAction.Done.park {id : SegmentId} {commit : CommitId} (h : a.Done f)
    (hid : id ≠ a.segmentId) : a.Done (f.park id commit) := by
  cases a <;> simp only [Done, SegmentFiles.park, SegmentFiles.retire, JournalAction.segmentId] at * <;>
    grind

theorem Between.done (h : Between actions f g) (hother : ∀ b ∈ actions, b.segmentId ≠ a.segmentId)
    (hdone : a.Done f) : a.Done g := by
  induction h with
  | start => exact hdone
  | parked => exact hdone.park (hother _ mem_cons_self)
  | next _ ih =>
    refine ih (fun b hb => hother b (mem_cons_of_mem _ hb)) ?_
    exact (JournalAction.settle_other (hother _ mem_cons_self)).2 hdone

/-- The hypotheses of a replay, for the actions after the first. -/
theorem JournalAction.ready_rest (hnodup : ((a :: actions).map (·.segmentId)).Nodup)
    (hready : ∀ b ∈ a :: actions, b.Ready f) :
    (actions.map (·.segmentId)).Nodup ∧ (∀ b ∈ actions, b.segmentId ≠ a.segmentId)
      ∧ ∀ b ∈ actions, b.Ready (a.settle f) := by
  obtain ⟨hfresh, hnodup⟩ := nodup_cons.mp hnodup
  have hother : ∀ b ∈ actions, b.segmentId ≠ a.segmentId :=
    fun b hb he => hfresh (mem_map.mpr ⟨b, hb, he⟩)
  refine ⟨hnodup, hother, fun b hb => ?_⟩
  exact (settle_other (hother b hb).symm).1 (hready b (mem_cons_of_mem _ hb))

/-- All actions settled. -/
theorem Between.all (hnodup : (actions.map (·.segmentId)).Nodup) (hready : ∀ a ∈ actions, a.Ready f) :
    Between actions f (actions.foldl JournalAction.settle f)
      ∧ ∀ a ∈ actions, a.Done (actions.foldl JournalAction.settle f) := by
  induction actions generalizing f with
  | nil => exact ⟨.start, nofun⟩
  | cons a actions ih =>
    obtain ⟨hnodup, hother, hrest⟩ := JournalAction.ready_rest hnodup hready
    obtain ⟨hall, hdone⟩ := ih hnodup hrest
    refine ⟨.next hall, forall_mem_cons.mpr ⟨?_, hdone⟩⟩
    exact hall.done hother (hready a mem_cons_self).settle

/-! ## §4. Attempts, interrupted or not -/

/-- From the files `g`, `x` ends with the files `final`, or is interrupted with
    files of which `P` holds. -/
def Went (x : ReplayM Unit) (g final : SegmentFiles) (P : SegmentFiles → Prop) : Prop :=
  ∀ steps, (∃ left, (steps = none → left = none) ∧ x ⟨g, steps⟩ = .ok () ⟨final, left⟩)
    ∨ steps ≠ none ∧ ∃ t, x ⟨g, steps⟩ = .error .interrupted t ∧ P t.files

theorem Went.pure : Went (pure ()) g g P := fun _ => .inl ⟨_, fun h => h, rfl⟩

theorem Went.fileStep {change : SegmentFiles → SegmentFiles} (h : P g) :
    Went (fileStep change) g (change g) P := by
  intro steps
  cases steps with
  | none => exact .inl ⟨none, fun h => h, rfl⟩
  | some n =>
    cases n with
    | zero => exact .inr ⟨nofun, _, rfl, h⟩
    | succ n => exact .inl ⟨some n, nofun, rfl⟩

theorem Went.bind {x y : ReplayM Unit} {mid final : SegmentFiles} (hx : Went x g mid P)
    (hy : Went y mid final P) : Went (do x; y) g final P := by
  intro steps
  rcases hx steps with ⟨left, hleft, hok⟩ | ⟨hsteps, t, herr, ht⟩
  · rw [show (do x; y) = (x >>= fun _ => y) from rfl, bind_of_ok hok]
    rcases hy left with ⟨left', hleft', hok'⟩ | ⟨hsteps, h⟩
    · exact .inl ⟨left', fun h => hleft' (hleft h), hok'⟩
    · exact .inr ⟨fun h => hsteps (hleft h), h⟩
  · exact .inr ⟨hsteps, t, bind_of_error herr, ht⟩

theorem Went.look {k : SegmentFiles → ReplayM Unit} {final : SegmentFiles} (h : Went (k g) g final P) :
    Went (look >>= k) g final P := h

/-- An action finds its own result and does nothing. -/
theorem Went.done (h : a.Done f) : Went (replayAction a) f f P := by
  cases a with
  | promote id =>
    refine Went.look ?_
    rw [if_pos h.1]
    exact .pure
  | tombstone id commit =>
    refine Went.look ?_
    rw [if_neg (h.2 commit), if_pos h.1]
    exact .pure

theorem Went.ready (h : a.Ready f) :
    Went (replayAction a) f (a.settle f) (Between (a :: actions) f) := by
  cases a with
  | promote id =>
    refine Went.look ?_
    show Went _ f (if id ∈ f.live then f else f.publish id) _
    split_ifs with hlive hstaging
    · exact .pure
    · exact .fileStep Between.start
    · exact absurd (h.mpr hstaging) hlive
  | tombstone id commit =>
    refine Went.look ?_
    rw [if_neg (h.2 commit), if_neg (not_not_intro h.1)]
    refine (Went.fileStep Between.start).bind ?_
    show Went _ _ (f.retire id) _
    rw [← SegmentFiles.unpark_park (h.2 commit)]
    exact .fileStep .parked

/-- A tombstone parked before finds its parked file and removes it. -/
theorem Went.parked {id : SegmentId} {commit : CommitId}
    (h : JournalAction.Ready f (.tombstone id commit)) :
    Went (replayAction (.tombstone id commit)) (f.park id commit) (f.retire id)
      (Between (.tombstone id commit :: actions) f) := by
  refine Went.look ?_
  rw [if_pos (show (id, commit) ∈ (f.park id commit).tombstones from mem_cons_self),
    ← SegmentFiles.unpark_park (h.2 commit)]
  exact .fileStep .parked

/-- **An attempt from any point of earlier ones.** -/
theorem replayActions_went (h : Between actions f g) (hnodup : (actions.map (·.segmentId)).Nodup)
    (hready : ∀ a ∈ actions, a.Ready f) :
    Went (replayActions actions) g (actions.foldl JournalAction.settle f) (Between actions f) := by
  induction actions generalizing f g with
  | nil =>
    cases h
    exact .pure
  | cons a actions ih =>
    obtain ⟨hnodup, hother, hrest⟩ := JournalAction.ready_rest hnodup hready
    have hnext : ∀ {g}, Between actions (a.settle f) g → Went (replayActions actions) g
        ((a :: actions).foldl JournalAction.settle f) (Between (a :: actions) f) := by
      intro g hg steps
      exact (ih hg hnodup hrest steps).imp (fun h => h) fun ⟨hs, t, he, ht⟩ => ⟨hs, t, he, .next ht⟩
    have ha := hready a mem_cons_self
    cases h with
    | start => exact (Went.ready ha).bind (hnext .start)
    | parked => exact (Went.parked ha).bind (hnext .start)
    | next hg =>
      exact (Went.done (hg.done hother ha.settle)).bind (hnext hg)

/-- **Journal replay converges.**  After any number of interrupted attempts, a
    complete one ends without error, and with the files of a first attempt that is
    not interrupted: promoted ids live and not staged, tombstoned ids neither live
    nor parked. -/
theorem journal_replay_converges (actions : List (JournalAction SegmentId)) (files : SegmentFiles)
    (hnodup : (actions.map (·.segmentId)).Nodup) (hready : ∀ a ∈ actions, a.Ready files)
    (interrupted : List Nat) :
    ∃ final, replayActions actions ⟨files, none⟩ = .ok () ⟨final, none⟩
      ∧ replayActions actions ⟨interrupted.foldl (filesAfter actions) files, none⟩
        = .ok () ⟨final, none⟩
      ∧ ∀ a ∈ actions, a.Done final := by
  have hmid : ∀ g, Between actions files g →
      Between actions files (interrupted.foldl (filesAfter actions) g) := by
    induction interrupted with
    | nil => exact fun g hg => hg
    | cons steps interrupted ih =>
      intro g hg
      refine ih _ ?_
      unfold filesAfter
      rcases replayActions_went hg hnodup hready (some steps) with ⟨left, -, hok⟩ | ⟨-, t, herr, ht⟩
      · rw [hok]
        exact (Between.all hnodup hready).1
      · rw [herr]
        exact ht
  have hend : ∀ g, Between actions files g → replayActions actions ⟨g, none⟩
      = .ok () ⟨actions.foldl JournalAction.settle files, none⟩ := by
    intro g hg
    rcases replayActions_went hg hnodup hready none with ⟨left, hleft, hok⟩ | ⟨hne, -⟩
    · rw [hok, hleft rfl]
    · exact absurd rfl hne
  exact ⟨_, hend _ .start, hend _ (hmid _ .start), (Between.all hnodup hready).2⟩

/-- Three attempts stopped at different places, then a complete one. -/
theorem journal_replay_converges_interrupted :
    let actions : List (JournalAction SegmentId) := [.promote 1, .tombstone 2 9, .promote 3]
    let files : SegmentFiles := ⟨[1], [2, 3], []⟩
    filesAfter actions files 2 = ⟨[], [1, 3], [(2, 9)]⟩
      ∧ ∃ final, replayActions actions ⟨files, none⟩ = .ok () ⟨final, none⟩
        ∧ replayActions actions ⟨[0, 2, 0].foldl (filesAfter actions) files, none⟩
          = .ok () ⟨final, none⟩
        ∧ ∀ a ∈ actions, a.Done final :=
  ⟨rfl, journal_replay_converges _ _ (by decide) (by simp [JournalAction.Ready]) [0, 2, 0]⟩

end Pagedb
