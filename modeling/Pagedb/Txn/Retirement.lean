/-
  Pagedb.Txn.Retirement — source keys outlive their readers
  (`txn/db/core.rs`, `txn/db/reader.rs`, `pager/core/pager.rs`).

  A rekey leaves a source key behind that readers of older snapshots still need.
  `retire_rekey_source_when_safe` retires it at once or records the obligation,
  and the last reader that leaves drains what was recorded.  Threads take the two
  locks in steps of their own, in any order.

  The registry carries what proofs need to name and no code reads: every retirement
  that was asked for, with the readers tracked at that moment, and what was retired when.
-/
import Pagedb.Lib.Run

namespace Pagedb

/-! ## §1. The registry -/

/-- `PendingKeyRetirement`. -/
structure PendingKeyRetirement where
  epoch : Nat
  cipherId : Nat
  deriving DecidableEq, Repr

/-- What `retire_mk_epoch` refuses with: `rekey_state_invalid("active_epoch_retirement")`. -/
inductive RetireError where
  | activeEpochRetirement
  deriving DecidableEq, Repr

/-- An entry of `pending_key_retirements`.  `before` are the readers that were tracked
    when the retirement was asked for, and `refused` says that it has been tried since,
    in vain. -/
structure Obligation where
  pending : PendingKeyRetirement
  before : List Nat
  refused : Bool
  deriving DecidableEq, Repr

/-- A key taken from the keyring, with the readers tracked and the epoch active at
    that moment. -/
structure Removal where
  obligation : Obligation
  tracked : List Nat
  active : Nat
  deriving DecidableEq, Repr

/-- A call of `retire_rekey_source_when_safe`, noted when it is made: its key, the
    readers that were tracked, and how many keys had been removed by then. -/
structure Ask where
  pending : PendingKeyRetirement
  before : List Nat
  since : Nat
  deriving DecidableEq, Repr

/-- Where a thread is in the three functions. -/
inductive RetirePhase where
  | idle
  /-- `register_read`, the entry id taken from `reader_seq`. -/
  | registering (entryId : Nat)
  /-- `unregister_read`. -/
  | unregistering (entryId : Nat)
  /-- The reader set was empty; the drain is to lock the retirements. -/
  | draining
  /-- The drain holds the retirements and is to look at the readers. -/
  | drainLocked
  /-- `retire_rekey_source_when_safe`, to lock the retirements. -/
  | calling (p : PendingKeyRetirement) (before : List Nat)
  | callLocked (p : PendingKeyRetirement) (before : List Nat)
  /-- It has looked at the readers. -/
  | callDecided (p : PendingKeyRetirement) (before : List Nat) (readersPresent : Bool)
  /-- `retire_recorded`, inside `retain`. -/
  | sweeping (kept todo : List Obligation) (firstError : Option RetireError)
  /-- `retire_mk_epoch` has passed its check. -/
  | removing (kept : List Obligation) (o : Obligation) (todo : List Obligation)
      (firstError : Option RetireError)
  deriving DecidableEq, Repr

/-- The part of a `Db` that retirement is about, and its threads. -/
structure Registry (T : Type) where
  trackedReaders : List Nat
  readerSeq : Nat
  pendingKeyRetirements : List Obligation
  /-- Who holds the lock of `pending_key_retirements`. -/
  locked : Option T
  activeEpoch : Nat
  cipherId : Nat
  phase : T → RetirePhase
  /-- What the last call of a thread returned. -/
  answer : T → Except RetireError Unit
  /-- Every entry id that was ever tracked. -/
  seen : List Nat
  removals : List Removal
  /-- Every retirement that was ever asked for. -/
  asked : List Ask

/-- What a thread may start. -/
inductive RetireCall where
  | register
  | unregister (entryId : Nat)
  | retire (p : PendingKeyRetirement)
  deriving DecidableEq, Repr

/-- One step of the system: a thread starts a call, a thread takes its next step,
    or a rekey activates its target epoch. -/
inductive RetireEvent (T : Type) where
  | start (t : T) (call : RetireCall)
  | advance (t : T)
  | activate (epoch : Nat)

variable {T : Type} [DecidableEq T]

namespace Registry

/-- A `Db` that was just opened. -/
def opened (activeEpoch cipherId : Nat) : Registry T where
  trackedReaders := []
  readerSeq := 0
  pendingKeyRetirements := []
  locked := none
  activeEpoch := activeEpoch
  cipherId := cipherId
  phase := fun _ => .idle
  answer := fun _ => .ok ()
  seen := []
  removals := []
  asked := []

/-- The thread goes on to `p`. -/
def goto (s : Registry T) (t : T) (p : RetirePhase) : Registry T :=
  { s with phase := Function.update s.phase t p }

/-- The thread lets go of the retirements and returns. -/
def release (s : Registry T) (t : T) (retirements : List Obligation)
    (firstError : Option RetireError) : Registry T :=
  goto { s with
    pendingKeyRetirements := retirements
    locked := none
    answer := Function.update s.answer t (firstError.elim (.ok ()) .error) } t .idle

/-- The test of `retire_mk_epoch`. -/
def Active (s : Registry T) (p : PendingKeyRetirement) : Prop :=
  p.epoch = s.activeEpoch ∧ p.cipherId = s.cipherId

instance (s : Registry T) (p : PendingKeyRetirement) : Decidable (s.Active p) :=
  inferInstanceAs (Decidable (_ ∧ _))

/-- The retirements with an entry for `p`, which is pushed unless the list has it. -/
def recorded (s : Registry T) (p : PendingKeyRetirement) (before : List Nat) : List Obligation :=
  if s.pendingKeyRetirements.any fun o => o.pending = p then
    s.pendingKeyRetirements.map fun o =>
      if o.pending = p then { o with before := o.before ++ before, refused := false } else o
  else s.pendingKeyRetirements ++ [⟨p, before, false⟩]

/-- The retirements go through `retain`. -/
def sweep (s : Registry T) (t : T) (retirements : List Obligation) : Registry T :=
  goto { s with pendingKeyRetirements := [] } t (.sweeping [] retirements none)

/-- The next step of a thread.  One that waits for a lock stays where it is. -/
def advance (s : Registry T) (t : T) : Registry T :=
  match s.phase t with
  | .idle => s
  | .registering id =>
    goto { s with trackedReaders := s.trackedReaders ++ [id], seen := id :: s.seen } t .idle
  | .unregistering id =>
    -- `swap_remove`; the order of the readers is never looked at
    goto { s with trackedReaders := s.trackedReaders.erase id } t
      (if (s.trackedReaders.erase id).isEmpty then .draining else .idle)
  | .draining =>
    if s.locked.isNone then goto { s with locked := some t } t .drainLocked else s
  | .drainLocked =>
    if s.trackedReaders.isEmpty then s.sweep t s.pendingKeyRetirements
    else s.release t s.pendingKeyRetirements none
  | .calling p before =>
    if s.locked.isNone then goto { s with locked := some t } t (.callLocked p before) else s
  | .callLocked p before => s.goto t (.callDecided p before !s.trackedReaders.isEmpty)
  | .callDecided p before readersPresent =>
    if readersPresent then s.release t (s.recorded p before) none
    else s.sweep t (s.recorded p before)
  | .sweeping kept [] firstError => s.release t kept firstError
  | .sweeping kept (o :: todo) firstError =>
    if s.Active o.pending then
      s.goto t (.sweeping (kept ++ [{ o with refused := true }]) todo
        (firstError.or (some .activeEpochRetirement)))
    else s.goto t (.removing kept o todo firstError)
  | .removing kept o todo firstError =>
    goto { s with removals := s.removals ++ [⟨o, s.trackedReaders, s.activeEpoch⟩] } t
      (.sweeping kept todo firstError)

/-- A retirement is asked for. -/
def ask (s : Registry T) (p : PendingKeyRetirement) : Registry T :=
  { s with asked := s.asked ++ [⟨p, s.trackedReaders, s.removals.length⟩] }

/-- A thread starts a call; it makes one at a time.  A key is retired as the source
    of a rekey, whose epoch is not above the active one. -/
def start (s : Registry T) (t : T) (call : RetireCall) : Registry T :=
  match s.phase t, call with
  | .idle, .register => goto { s with readerSeq := s.readerSeq + 1 } t (.registering s.readerSeq)
  | .idle, .unregister id => s.goto t (.unregistering id)
  | .idle, .retire p =>
    if p.epoch ≤ s.activeEpoch then (s.ask p).goto t (.calling p s.trackedReaders) else s
  | _, _ => s

/-- Every step of the system.  `rekey_db` accepts only a target above the active
    epoch. -/
def step (s : Registry T) : RetireEvent T → Registry T
  | .start t call => s.start t call
  | .advance t => s.advance t
  | .activate epoch => if s.activeEpoch < epoch then { s with activeEpoch := epoch } else s

end Registry

/-! ## §2. Moves -/

namespace Registry

/-- What a step can do, one case for each. -/
inductive Move (s : Registry T) : Registry T → Prop where
  | stay : Move s s
  | activate (epoch : Nat) (h : s.activeEpoch < epoch) : Move s { s with activeEpoch := epoch }
  | takeId (t : T) (h : s.phase t = .idle) :
      Move s (goto { s with readerSeq := s.readerSeq + 1 } t (.registering s.readerSeq))
  | leave (t : T) (id : Nat) (h : s.phase t = .idle) : Move s (s.goto t (.unregistering id))
  | call (t : T) (p : PendingKeyRetirement) (h : s.phase t = .idle)
      (hp : p.epoch ≤ s.activeEpoch) : Move s ((s.ask p).goto t (.calling p s.trackedReaders))
  | track (t : T) (id : Nat) (h : s.phase t = .registering id) :
      Move s (goto { s with
        trackedReaders := s.trackedReaders ++ [id], seen := id :: s.seen } t .idle)
  | untrack (t : T) (id : Nat) (h : s.phase t = .unregistering id)
      (hmore : s.trackedReaders.erase id ≠ []) :
      Move s (goto { s with trackedReaders := s.trackedReaders.erase id } t .idle)
  | untrackLast (t : T) (id : Nat) (h : s.phase t = .unregistering id)
      (hlast : s.trackedReaders.erase id = []) :
      Move s (goto { s with trackedReaders := s.trackedReaders.erase id } t .draining)
  | drainLock (t : T) (h : s.phase t = .draining) (hfree : s.locked = none) :
      Move s (goto { s with locked := some t } t .drainLocked)
  | drainPass (t : T) (h : s.phase t = .drainLocked) (hreaders : s.trackedReaders ≠ []) :
      Move s (s.release t s.pendingKeyRetirements none)
  | drainSweep (t : T) (h : s.phase t = .drainLocked) (hreaders : s.trackedReaders = []) :
      Move s (s.sweep t s.pendingKeyRetirements)
  | callLock (t : T) (p : PendingKeyRetirement) (before : List Nat)
      (h : s.phase t = .calling p before) (hfree : s.locked = none) :
      Move s (goto { s with locked := some t } t (.callLocked p before))
  | callLook (t : T) (p : PendingKeyRetirement) (before : List Nat)
      (h : s.phase t = .callLocked p before) :
      Move s (s.goto t (.callDecided p before !s.trackedReaders.isEmpty))
  | callDefer (t : T) (p : PendingKeyRetirement) (before : List Nat)
      (h : s.phase t = .callDecided p before true) :
      Move s (s.release t (s.recorded p before) none)
  | callSweep (t : T) (p : PendingKeyRetirement) (before : List Nat)
      (h : s.phase t = .callDecided p before false) : Move s (s.sweep t (s.recorded p before))
  | refuse (t : T) (kept : List Obligation) (o : Obligation) (todo : List Obligation)
      (e : Option RetireError) (h : s.phase t = .sweeping kept (o :: todo) e)
      (hactive : s.Active o.pending) :
      Move s (s.goto t (.sweeping (kept ++ [{ o with refused := true }]) todo
        (e.or (some .activeEpochRetirement))))
  | allow (t : T) (kept : List Obligation) (o : Obligation) (todo : List Obligation)
      (e : Option RetireError) (h : s.phase t = .sweeping kept (o :: todo) e)
      (hactive : ¬ s.Active o.pending) : Move s (s.goto t (.removing kept o todo e))
  | remove (t : T) (kept : List Obligation) (o : Obligation) (todo : List Obligation)
      (e : Option RetireError) (h : s.phase t = .removing kept o todo e) :
      Move s (goto { s with removals := s.removals ++ [⟨o, s.trackedReaders, s.activeEpoch⟩] } t
        (.sweeping kept todo e))
  | finish (t : T) (kept : List Obligation) (e : Option RetireError)
      (h : s.phase t = .sweeping kept [] e) : Move s (s.release t kept e)

theorem advance_moves (s : Registry T) (t : T) : s.Move (s.advance t) := by
  unfold advance
  cases h : s.phase t with
  | idle => exact .stay
  | registering id => exact .track t id h
  | unregistering id =>
    dsimp only
    by_cases hlast : s.trackedReaders.erase id = []
    · rw [if_pos (List.isEmpty_iff.mpr hlast)]
      exact .untrackLast t id h hlast
    · rw [if_neg fun hempty => hlast (List.isEmpty_iff.mp hempty)]
      exact .untrack t id h hlast
  | draining =>
    cases hfree : s.locked with
    | none => exact .drainLock t h hfree
    | some t' => exact .stay
  | drainLocked =>
    cases hreaders : s.trackedReaders with
    | nil => exact .drainSweep t h hreaders
    | cons r rest => exact .drainPass t h (by rw [hreaders]; exact List.cons_ne_nil _ _)
  | calling p before =>
    cases hfree : s.locked with
    | none => exact .callLock t p before h hfree
    | some t' => exact .stay
  | callLocked p before => exact .callLook t p before h
  | callDecided p before readersPresent =>
    cases readersPresent with
    | true => exact .callDefer t p before h
    | false => exact .callSweep t p before h
  | sweeping kept todo e =>
    cases todo with
    | nil => exact .finish t kept e h
    | cons o todo =>
      dsimp only
      split_ifs with hactive
      · exact .refuse t kept o todo e h hactive
      · exact .allow t kept o todo e h hactive
  | removing kept o todo e => exact .remove t kept o todo e h

theorem step_moves (s : Registry T) (e : RetireEvent T) : s.Move (s.step e) := by
  cases e with
  | activate epoch =>
    unfold step
    dsimp only
    split_ifs with h
    · exact .activate epoch h
    · exact .stay
  | advance t => exact s.advance_moves t
  | start t call =>
    unfold step start
    dsimp only
    cases h : s.phase t with
    | idle =>
      cases call with
      | register => exact .takeId t h
      | unregister id => exact .leave t id h
      | retire p =>
        dsimp only
        split_ifs with hp
        · exact .call t p h hp
        · exact .stay
    | _ => exact .stay

end Registry

end Pagedb
