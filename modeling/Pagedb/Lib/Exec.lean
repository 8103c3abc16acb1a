/-
  Pagedb.Lib.Exec — stateful programs that can fail.

  A program is an `EStateM`: from a state it ends in a value or an error, and
  in a state either way.  The statements made about programs:

    * what a run that returned a value did, by peeling the program apart with
      the `_eq_ok` lemmas;
    * `Keeps I x`: the invariant `I` survives `x` however it ends, which is
      what holds at every error and cancellation point;
    * `Safe I E Q x`: besides, `x` fails only with errors of `E` and returns only
      values of `Q`;
    * `Refuses clear e P x s`, `Decides clear e P x s Q`: `x` fails with `e` exactly
      where `P` does not hold;
    * `Confined f E x`: `x` neither reads nor writes what `f` changes, and fails
      only with errors of `E`.

  A pure program that only checks its input is an `Except` made of `require`s.
-/
import Pagedb.Lib.Run

namespace Pagedb.Lib

open List

variable {ε σ α β : Type}

/-! ## Peeling a run that returned a value -/

variable {x : EStateM ε σ α} {f : α → EStateM ε σ β} {s s' t : σ} {a : α} {e : ε}
  {r : EStateM.Result ε σ α}

theorem bind_eq_ok {b : β} : (x >>= f) s = .ok b s' ↔ ∃ a t, x s = .ok a t ∧ f a t = .ok b s' := by
  show EStateM.bind x f s = _ ↔ _
  unfold EStateM.bind
  cases x s with
  | ok a t =>
    constructor
    · intro h; exact ⟨a, t, rfl, h⟩
    · rintro ⟨a', t', h, hf⟩
      cases h
      exact hf
  | error e t =>
    constructor
    · intro h; cases h
    · rintro ⟨a', t', h, -⟩; cases h

theorem bind_of_ok (h : x s = .ok a t) : (x >>= f) s = f a t := by
  show EStateM.bind x f s = _
  unfold EStateM.bind
  rw [h]

theorem bind_of_error (h : x s = .error e t) : (x >>= f) s = .error e t := by
  show EStateM.bind x f s = _
  unfold EStateM.bind
  rw [h]

theorem bind_eq_error :
    (x >>= f) s = .error e s' ↔ x s = .error e s' ∨ ∃ a t, x s = .ok a t ∧ f a t = .error e s' := by
  cases hx : x s with
  | ok a t =>
    rw [bind_of_ok hx]
    constructor
    · intro h; exact Or.inr ⟨a, t, rfl, h⟩
    · rintro (h | ⟨a', t', h, hf⟩)
      · cases h
      · cases h
        exact hf
  | error e' t =>
    rw [bind_of_error hx]
    constructor
    · intro h
      cases h
      exact Or.inl rfl
    · rintro (h | ⟨a', t', h, -⟩)
      · cases h
        rfl
      · cases h

theorem pure_eq_ok {b : α} : (pure a : EStateM ε σ α) s = .ok b s' ↔ a = b ∧ s = s' := by
  constructor
  · intro h; cases h; exact ⟨rfl, rfl⟩
  · rintro ⟨rfl, rfl⟩; rfl

theorem throw_eq_ok {b : α} : (throw e : EStateM ε σ α) s = .ok b s' ↔ False := by
  constructor
  · intro h; cases h
  · exact False.elim

theorem get_eq_ok : (get : EStateM ε σ σ) s = .ok t s' ↔ t = s ∧ s' = s := by
  constructor
  · intro h; cases h; exact ⟨rfl, rfl⟩
  · rintro ⟨rfl, rfl⟩; rfl

theorem set_eq_ok {u : PUnit} : (set t : EStateM ε σ PUnit) s = .ok u s' ↔ s' = t := by
  constructor
  · intro h; cases h; rfl
  · rintro rfl; rfl

theorem modify_eq_ok {f : σ → σ} {u : PUnit} :
    (modify f : EStateM ε σ PUnit) s = .ok u s' ↔ s' = f s := by
  constructor
  · intro h; cases h; rfl
  · rintro rfl; rfl

theorem tryCatch_eq_ok {f : ε → EStateM ε σ α} (h : (tryCatch x f) s = .ok a s') :
    x s = .ok a s' ∨ ∃ e t, x s = .error e t ∧ f e t = .ok a s' := by
  have h' : EStateM.tryCatch x f s = .ok a s' := h
  unfold EStateM.tryCatch at h'
  cases hx : x s with
  | ok b t => rw [hx] at h'; exact Or.inl h'
  | error e t => rw [hx] at h'; exact Or.inr ⟨e, t, rfl, h'⟩

theorem get_bind {f : σ → EStateM ε σ α} : ((get : EStateM ε σ σ) >>= f) s = f s s := rfl

theorem set_bind {f : PUnit → EStateM ε σ α} : ((set t : EStateM ε σ PUnit) >>= f) s = f ⟨⟩ t := rfl

theorem modify_bind {f : PUnit → EStateM ε σ α} {g : σ → σ} :
    ((modify g : EStateM ε σ PUnit) >>= f) s = f ⟨⟩ (g s) := rfl

/-- Whether a run returned. -/
def isOk : EStateM.Result ε σ α → Bool
  | .ok _ _ => true
  | .error _ _ => false

/-- What a run returned, if it did. -/
def value? : EStateM.Result ε σ α → Option α
  | .ok a _ => some a
  | .error _ _ => none

/-- What a run returned or failed with. -/
def outcome : EStateM.Result ε σ α → Except ε α
  | .ok a _ => .ok a
  | .error e _ => .error e

/-- Runs with one outcome, continued by a program that does not look at the state. -/
theorem outcome_bind {y : EStateM ε σ α} (h : outcome (x s) = outcome (y t))
    (hf : ∀ a u v, outcome (f a u) = outcome (f a v)) :
    outcome ((x >>= f) s) = outcome ((y >>= f) t) := by
  cases hx : x s with
  | ok a u =>
    cases hy : y t with
    | ok b v =>
      rw [hx, hy] at h
      cases h
      rw [bind_of_ok hx, bind_of_ok hy]
      exact hf a u v
    | error e v =>
      rw [hx, hy] at h
      cases h
  | error e u =>
    cases hy : y t with
    | ok b v =>
      rw [hx, hy] at h
      cases h
    | error e' v =>
      rw [hx, hy] at h
      cases h
      rw [bind_of_error hx, bind_of_error hy]
      rfl

theorem exists_ok_of_isOk (h : isOk r = true) : ∃ a s, r = .ok a s := by
  cases r with
  | ok a s => exact ⟨a, s, rfl⟩
  | error e s => cases h

/-- A run that returns, and what it returns passes a test. -/
def okThen (r : EStateM.Result ε σ α) (p : α → σ → Bool) : Bool :=
  match r with
  | .ok a s => p a s
  | .error _ _ => false

theorem exists_of_okThen {p : α → σ → Bool} (h : okThen r p = true) :
    ∃ a s, r = .ok a s ∧ p a s = true := by
  cases r with
  | ok a s => exact ⟨a, s, rfl, h⟩
  | error e s => cases h

/-- A fact about where a run ends, from a test of where it ends. -/
theorem exists_ok_imp {r : EStateM.Result ε σ Unit} {P Q : σ → Prop} [DecidablePred P]
    (h : okThen r (fun _ s => decide (P s)) = true) (himp : ∀ s, r = .ok () s → P s → Q s) :
    ∃ s, r = .ok () s ∧ Q s := by
  obtain ⟨_, s, hr, hp⟩ := exists_of_okThen h
  exact ⟨s, hr, himp s hr (of_decide_eq_true hp)⟩

/-- A run and one more behind it, by a test. -/
theorem exists_ok_ok {r : EStateM.Result ε σ Unit} {x : EStateM ε σ α} [DecidableEq α] {a : α}
    {Q : σ → σ → Prop} [∀ s t, Decidable (Q s t)]
    (h : okThen r (fun _ s => okThen (x s) fun b t => decide (b = a ∧ Q s t)) = true) :
    ∃ s t, r = .ok () s ∧ x s = .ok a t ∧ Q s t := by
  obtain ⟨_, s, hr, h⟩ := exists_of_okThen h
  obtain ⟨b, t, hx, h⟩ := exists_of_okThen h
  obtain ⟨rfl, hq⟩ := of_decide_eq_true h
  exact ⟨s, t, hr, hx, hq⟩

/-- A run that fails, and how it fails passes a test. -/
def errorThen (r : EStateM.Result ε σ α) (p : ε → σ → Bool) : Bool :=
  match r with
  | .ok _ _ => false
  | .error e s => p e s

theorem exists_of_errorThen {p : ε → σ → Bool} (h : errorThen r p = true) :
    ∃ e s, r = .error e s ∧ p e s = true := by
  cases r with
  | ok a s => cases h
  | error e s => exact ⟨e, s, rfl, h⟩

/-! ## Programs that return when nothing goes wrong -/

/-- From `s`, `x` returns only what `Q` allows, and from a `clear` state it does
    return, in a clear state. -/
structure Returns (clear : σ → Prop) (x : EStateM ε σ α) (s : σ) (Q : α → σ → Prop) : Prop where
  sound : ∀ a t, x s = .ok a t → Q a t
  total : clear s → ∃ a t, x s = .ok a t ∧ clear t

section Returns

variable {clear : σ → Prop} {s : σ}

variable {Q : α → σ → Prop} {x : EStateM ε σ α}

theorem Returns.pure {a : α} (h : Q a s) : Returns clear (Pure.pure a : EStateM ε σ α) s Q where
  sound := by
    intro b t hb
    obtain ⟨rfl, rfl⟩ := pure_eq_ok.mp hb
    exact h
  total := fun hs => ⟨a, s, rfl, hs⟩

theorem Returns.bind {f : α → EStateM ε σ β} {P : α → σ → Prop} {Q : β → σ → Prop}
    (hx : Returns clear x s P) (hf : ∀ a t, P a t → Returns clear (f a) t Q) :
    Returns clear (x >>= f) s Q where
  sound := by
    intro b u hb
    obtain ⟨a, t, hxa, hfb⟩ := bind_eq_ok.mp hb
    exact (hf a t (hx.sound a t hxa)).sound b u hfb
  total := by
    intro hs
    obtain ⟨a, t, hxa, ht⟩ := hx.total hs
    rw [bind_of_ok hxa]
    exact (hf a t (hx.sound a t hxa)).total ht

theorem Returns.weaken {P : α → σ → Prop} (hx : Returns clear x s P) (h : ∀ a t, P a t → Q a t) :
    Returns clear x s Q where
  sound := fun a t hat => h a t (hx.sound a t hat)
  total := hx.total

/-- What `x` returns, together with the run that returned it. -/
theorem Returns.with_run (hx : Returns clear x s Q) :
    Returns clear x s fun a t => x s = .ok a t ∧ Q a t where
  sound := fun a t hrun => ⟨hrun, hx.sound a t hrun⟩
  total := hx.total

theorem Returns.value (hx : Returns clear x s Q) (hs : clear s) :
    ∃ a t, value? (x s) = some a ∧ Q a t ∧ clear t := by
  obtain ⟨a, t, hrun, ht⟩ := hx.total hs
  refine ⟨a, t, ?_, hx.sound a t hrun, ht⟩
  rw [hrun]
  rfl

theorem Returns.modify {f : σ → σ} {Q : PUnit → σ → Prop} (hclear : clear s → clear (f s))
    (h : Q ⟨⟩ (f s)) : Returns clear (modify f : EStateM ε σ PUnit) s Q where
  sound := by
    intro u t ht
    rw [modify_eq_ok.mp ht]
    exact h
  total := fun hs => ⟨⟨⟩, f s, rfl, hclear hs⟩

theorem Returns.get {f : σ → EStateM ε σ α} (h : Returns clear (f s) s Q) :
    Returns clear (MonadState.get >>= f) s Q where
  sound := h.sound
  total := h.total

end Returns

/-! ## Programs that end -/

/-- From a clear state `x` returns, in a clear state.  What it returns is said by
    its other lemmas: the rules hand on that it did return. -/
def Ends (clear : σ → Prop) (x : EStateM ε σ α) (s : σ) : Prop :=
  clear s → ∃ a t, x s = .ok a t ∧ clear t

section Ends

variable {clear : σ → Prop} {s : σ}

theorem Returns.ends {x : EStateM ε σ α} {Q : α → σ → Prop} (h : Returns clear x s Q) :
    Ends clear x s := h.total

theorem Ends.returns {x : EStateM ε σ α} {Q : α → σ → Prop} (h : Ends clear x s)
    (hQ : ∀ a t, x s = .ok a t → Q a t) : Returns clear x s Q := ⟨hQ, h⟩

theorem Ends.pure {a : α} : Ends clear (Pure.pure a : EStateM ε σ α) s := fun hs => ⟨a, s, rfl, hs⟩

theorem Ends.bind {x : EStateM ε σ α} {f : α → EStateM ε σ β} (hx : Ends clear x s)
    (hf : ∀ a t, x s = .ok a t → Ends clear (f a) t) : Ends clear (x >>= f) s := by
  intro hs
  obtain ⟨a, t, hxa, ht⟩ := hx hs
  rw [bind_of_ok hxa]
  exact hf a t hxa ht

theorem Ends.get {f : σ → EStateM ε σ α} (h : Ends clear (f s) s) :
    Ends clear (MonadState.get >>= f) s := h

theorem Ends.set {t : σ} (h : clear s → clear t) :
    Ends clear (MonadStateOf.set t : EStateM ε σ PUnit) s :=
  fun hs => ⟨⟨⟩, t, rfl, h hs⟩

theorem Ends.modify {f : σ → σ} (h : clear s → clear (f s)) :
    Ends clear (modify f : EStateM ε σ PUnit) s :=
  fun hs => ⟨⟨⟩, f s, rfl, h hs⟩

theorem Ends.tryCatch {x : EStateM ε σ α} {f : ε → EStateM ε σ α} (hx : Ends clear x s) :
    Ends clear (tryCatch x f) s := by
  intro hs
  obtain ⟨a, t, hxa, ht⟩ := hx hs
  refine ⟨a, t, ?_, ht⟩
  show EStateM.tryCatch x f s = _
  unfold EStateM.tryCatch
  rw [hxa]

end Ends

/-! ## Checks -/

/-- Fail with `e` unless `c` holds. -/
def require (c : Prop) [Decidable c] (e : ε) : Except ε Unit := if c then .ok () else .error e

section Checks

variable {c : Prop} [Decidable c] {e : ε} {x : Except ε α} {f : α → Except ε β}
  {g : Unit → Except ε β} {b : β}

theorem require_bind (h : c) : (require c e >>= g) = g () := by
  unfold require
  rw [if_pos h]
  rfl

theorem require_bind_eq_ok : (require c e >>= g) = .ok b ↔ c ∧ g () = .ok b := by
  unfold require
  split_ifs with hc
  · exact ⟨fun h => ⟨hc, h⟩, fun h => h.2⟩
  · constructor
    · intro h; cases h
    · intro h; exact absurd h.1 hc

theorem except_bind_eq_ok : (x >>= f) = .ok b ↔ ∃ a, x = .ok a ∧ f a = .ok b := by
  cases x with
  | ok a =>
    constructor
    · intro h; exact ⟨a, rfl, h⟩
    · rintro ⟨a', ha, h⟩
      cases ha
      exact h
  | error e =>
    constructor
    · intro h; cases h
    · rintro ⟨a', ha, -⟩; cases ha

theorem ok_bind {a : α} (h : x = .ok a) : (x >>= f) = f a := by
  rw [h]
  rfl

variable {xs : List α}

theorem forM_eq_ok {f : α → Except ε Unit} : xs.forM f = .ok () ↔ ∀ x ∈ xs, f x = .ok () := by
  induction xs with
  | nil => exact ⟨nofun, fun _ => rfl⟩
  | cons x xs ih =>
    have hstep : (x :: xs).forM f = (f x >>= fun _ => xs.forM f) := rfl
    rw [hstep, except_bind_eq_ok, forall_mem_cons, ← ih]
    constructor
    · rintro ⟨_, hx, hxs⟩
      exact ⟨hx, hxs⟩
    · rintro ⟨hx, hxs⟩
      exact ⟨(), hx, hxs⟩

theorem mapM_eq_ok {g : α → β} (h : ∀ x ∈ xs, f x = .ok (g x)) : xs.mapM f = .ok (xs.map g) := by
  induction xs with
  | nil => rfl
  | cons x xs ih =>
    rw [mapM_cons, ok_bind (h x mem_cons_self), ok_bind (ih fun y hy => h y (mem_cons_of_mem x hy))]
    rfl

/-- What a loop returns, program by program. -/
theorem mapM_eq_ok_iff :
    ∀ {ys : List β}, xs.mapM f = .ok ys ↔ List.Forall₂ (fun x y => f x = .ok y) xs ys := by
  induction xs with
  | nil =>
    intro ys
    rw [forall₂_nil_left_iff]
    exact ⟨fun h => (Except.ok.inj h).symm, fun h => by rw [h]; rfl⟩
  | cons x xs ih =>
    intro ys
    rw [mapM_cons, except_bind_eq_ok, forall₂_cons_left_iff]
    constructor
    · rintro ⟨y, hy, hrest⟩
      obtain ⟨ys', hys, heq⟩ := except_bind_eq_ok.mp hrest
      exact ⟨y, ys', hy, ih.mp hys, (Except.ok.inj heq).symm⟩
    · rintro ⟨y, ys', hy, hys, rfl⟩
      exact ⟨y, hy, except_bind_eq_ok.mpr ⟨ys', ih.mpr hys, rfl⟩⟩

theorem exists_mapM (h : ∀ x ∈ xs, ∃ y, f x = .ok y) : ∃ ys, xs.mapM f = .ok ys := by
  induction xs with
  | nil => exact ⟨[], rfl⟩
  | cons x xs ih =>
    obtain ⟨y, hy⟩ := h x mem_cons_self
    obtain ⟨ys, hys⟩ := ih fun z hz => h z (mem_cons_of_mem x hz)
    exact ⟨y :: ys, mapM_eq_ok_iff.mpr (.cons hy (mapM_eq_ok_iff.mp hys))⟩

/-- What holds before a fold and is kept by each of its steps holds behind it. -/
theorem foldlM_keeps {P : List α → β → Prop} {f : β → α → Except ε β}
    (hstep : ∀ {done s x s'}, P done s → f s x = .ok s' → P (done ++ [x]) s') {xs : List α} :
    ∀ {done s s'}, P done s → xs.foldlM f s = .ok s' → P (done ++ xs) s' := by
  induction xs with
  | nil =>
    rintro done s _ hs ⟨⟩
    rwa [append_nil]
  | cons x xs ih =>
    intro done s s' hs hrun
    obtain ⟨t, hx, hrest⟩ := except_bind_eq_ok.mp hrun
    have := ih (hstep hs hx) hrest
    rwa [append_assoc] at this

/-- A loop over the first numbers, by index. -/
theorem mapM_range_eq_ok {f : Nat → Except ε β} {n : Nat} {ys : List β} :
    (List.range n).mapM f = .ok ys ↔ ys.length = n ∧ ∀ i y, ys[i]? = some y → f i = .ok y := by
  rw [mapM_eq_ok_iff, forall₂_iff_get]
  constructor
  · rintro ⟨hlen, hall⟩
    rw [length_range] at hlen
    refine ⟨hlen.symm, fun i y hy => ?_⟩
    obtain ⟨hi, rfl⟩ := List.getElem?_eq_some_iff.mp hy
    simpa using hall i (by simpa [hlen] using hi) hi
  · rintro ⟨hlen, hall⟩
    refine ⟨by simp [hlen], fun i h₁ h₂ => ?_⟩
    simpa using hall i _ (getElem?_eq_getElem h₂)

end Checks

/-! ## Invariants that survive errors -/

/-- The state a run ended in, however it ended. -/
def endState : EStateM.Result ε σ α → σ
  | .ok _ s => s
  | .error _ s => s

/-- `x` keeps `I`, whether it returns or fails. -/
def Keeps (I : σ → Prop) (x : EStateM ε σ α) : Prop := ∀ s, I s → I (endState (x s))

variable {I : σ → Prop}

theorem Keeps.pure (a : α) : Keeps I (Pure.pure a : EStateM ε σ α) := fun _ h => h

theorem Keeps.throw (e : ε) : Keeps I (MonadExcept.throw e : EStateM ε σ α) := fun _ h => h

theorem Keeps.get : Keeps I (MonadState.get : EStateM ε σ σ) := fun _ h => h

theorem Keeps.modify {f : σ → σ} (hf : ∀ s, I s → I (f s)) :
    Keeps I (modifyGet fun s => (PUnit.unit, f s) : EStateM ε σ PUnit) := fun s h => hf s h

theorem Keeps.bind (hx : Keeps I x) (hf : ∀ a, Keeps I (f a)) : Keeps I (x >>= f) := by
  intro s hs
  have hxs := hx s hs
  show I (endState (EStateM.bind x f s))
  unfold EStateM.bind
  cases hr : x s with
  | ok a t =>
    rw [hr] at hxs
    exact hf a t hxs
  | error e t =>
    rw [hr] at hxs
    exact hxs

theorem Keeps.ite {c : Prop} [Decidable c] {y : EStateM ε σ α} (hx : Keeps I x) (hy : Keeps I y) :
    Keeps I (if c then x else y) := by
  split_ifs with hc
  · exact hx
  · exact hy

theorem Keeps.of_ok (hx : Keeps I x) (hs : I s) (hrun : x s = .ok a t) : I t := by
  have h := hx s hs
  rwa [hrun] at h

theorem Keeps.of_error (hx : Keeps I x) (hs : I s) (hrun : x s = .error e t) : I t := by
  have h := hx s hs
  rwa [hrun] at h

/-- `x` keeps `I`, and from a state with `I` it fails only with errors of `E`. -/
structure Guarded (I : σ → Prop) (E : ε → Prop) (x : EStateM ε σ α) : Prop where
  keeps : Keeps I x
  fails : ∀ s e t, I s → x s = .error e t → E e

/-- From `s` the program fails only with errors of `E`. -/
def FailsOnly (E : ε → Prop) (x : EStateM ε σ α) (s : σ) : Prop := ∀ e t, x s = .error e t → E e

section FailsOnly

variable {E : ε → Prop} {s : σ}

theorem Guarded.failsOnly {x : EStateM ε σ α} (hx : Guarded I E x) (hs : I s) : FailsOnly E x s :=
  fun e t => hx.fails s e t hs

theorem FailsOnly.pure (a : α) : FailsOnly E (Pure.pure a : EStateM ε σ α) s :=
  nofun

theorem FailsOnly.throw {e : ε} (he : E e) : FailsOnly E (throw e : EStateM ε σ α) s :=
  fun _ _ h => by
    cases h
    exact he

theorem FailsOnly.bind {x : EStateM ε σ α} {f : α → EStateM ε σ β} (hx : FailsOnly E x s)
    (hf : ∀ a t, x s = .ok a t → FailsOnly E (f a) t) : FailsOnly E (x >>= f) s := by
  intro e t heq
  rcases bind_eq_error.mp heq with herror | ⟨a, u, hrun, herror⟩
  · exact hx e t herror
  · exact hf a u hrun e t herror

theorem FailsOnly.get {f : σ → EStateM ε σ α} (h : FailsOnly E (f s) s) :
    FailsOnly E (MonadState.get >>= f) s := h

theorem FailsOnly.modify {g : σ → σ} {f : PUnit → EStateM ε σ α} (h : FailsOnly E (f ⟨⟩) (g s)) :
    FailsOnly E ((modify g : EStateM ε σ PUnit) >>= f) s := h

end FailsOnly

/-! ## Programs that refuse -/

/-- `x` refuses with `e` where `P` does not hold: with `P` it never fails with `e`, and
    from a clear state without `P` it does. -/
structure Refuses (clear : σ → Prop) (e : ε) (P : Prop) (x : EStateM ε σ α) (s : σ) : Prop where
  spares : P → ∀ t, x s ≠ .error e t
  catches : clear s → ¬ P → ∃ t, x s = .error e t

/-- `x` returns a value of `Q` where `P` holds, and only there; from a clear state it
    fails with `e` otherwise. -/
structure Decides (clear : σ → Prop) (e : ε) (P : Prop) (x : EStateM ε σ α) (s : σ)
    (Q : α → σ → Prop) : Prop where
  sound : ∀ a t, x s = .ok a t → P ∧ Q a t
  total : clear s → (∃ a t, x s = .ok a t ∧ clear t) ∨ ¬ P ∧ ∃ t, x s = .error e t

section Refusing

variable {clear : σ → Prop} {e : ε} {s : σ} {P P' : Prop} {x : EStateM ε σ α}

theorem Refuses.never (hx : FailsOnly (fun e' => e' ≠ e) x s) (hP : P) : Refuses clear e P x s where
  spares := fun _ t herror => hx e t herror rfl
  catches := fun _ hnot => absurd hP hnot

theorem Refuses.of_error {t : σ} (herror : x s = .error e t) (hP : ¬ P) :
    Refuses clear e P x s where
  spares := fun h => absurd h hP
  catches := fun _ _ => ⟨t, herror⟩

theorem Refuses.congr (hx : Refuses clear e P x s) (hP : P' ↔ P) : Refuses clear e P' x s where
  spares := fun h => hx.spares (hP.mp h)
  catches := fun hs h => hx.catches hs fun hp => h (hP.mpr hp)

theorem Refuses.get {f : σ → EStateM ε σ α} (h : Refuses clear e P (f s) s) :
    Refuses clear e P (MonadState.get >>= f) s where
  spares := h.spares
  catches := h.catches

/-- A step that does not refuse itself. -/
theorem Refuses.step {f : α → EStateM ε σ β} (hends : Ends clear x s)
    (hx : FailsOnly (fun e' => e' ≠ e) x s)
    (hf : ∀ a t, x s = .ok a t → Refuses clear e P (f a) t) : Refuses clear e P (x >>= f) s where
  spares := by
    intro hP t herror
    rcases bind_eq_error.mp herror with herror | ⟨a, u, hrun, herror⟩
    · exact hx e t herror rfl
    · exact (hf a u hrun).spares hP t herror
  catches := by
    intro hs hP
    obtain ⟨a, t, hrun, ht⟩ := hends hs
    rw [bind_of_ok hrun]
    exact (hf a t hrun).catches ht hP

/-- What follows does not refuse. -/
theorem Refuses.last {f : α → EStateM ε σ β} (hx : Refuses clear e P x s)
    (hf : ∀ a t, x s = .ok a t → FailsOnly (fun e' => e' ≠ e) (f a) t) :
    Refuses clear e P (x >>= f) s where
  spares := by
    intro hP t herror
    rcases bind_eq_error.mp herror with herror | ⟨a, u, hrun, herror⟩
    · exact hx.spares hP t herror
    · exact hf a u hrun e t herror rfl
  catches := by
    intro hs hP
    obtain ⟨t, herror⟩ := hx.catches hs hP
    exact ⟨t, bind_of_error herror⟩

theorem Refuses.behind {f : α → EStateM ε σ β} {a : α} {t : σ} (hrun : x s = .ok a t)
    (hf : Refuses clear e P (f a) t) (ht : clear s → clear t) : Refuses clear e P (x >>= f) s where
  spares := by
    rw [bind_of_ok hrun]
    exact hf.spares
  catches := by
    rw [bind_of_ok hrun]
    exact fun hs => hf.catches (ht hs)

variable {Q : α → σ → Prop}

theorem Decides.of_returns (hx : Returns clear x s Q) (hP : P) : Decides clear e P x s Q where
  sound := fun a t hrun => ⟨hP, hx.sound a t hrun⟩
  total := fun hs => Or.inl (hx.total hs)

theorem Decides.congr {Q' : α → σ → Prop} (hx : Decides clear e P x s Q) (hP : P' ↔ P)
    (hQ : ∀ a t, Q a t → Q' a t) : Decides clear e P' x s Q' where
  sound := by
    intro a t hrun
    obtain ⟨hp, hq⟩ := hx.sound a t hrun
    exact ⟨hP.mpr hp, hQ a t hq⟩
  total := fun hs => (hx.total hs).imp_right fun h => ⟨fun hp => h.1 (hP.mp hp), h.2⟩

/-- What is decided by a step, and behind it. -/
theorem Decides.bind {f : α → EStateM ε σ β} {R : α → σ → Prop} {Q : β → σ → Prop}
    (hx : Decides clear e P x s R) (hP : P' → P)
    (hf : P → ∀ a t, R a t → Decides clear e P' (f a) t Q) : Decides clear e P' (x >>= f) s Q where
  sound := by
    intro b u hrun
    obtain ⟨a, t, hxa, hfb⟩ := bind_eq_ok.mp hrun
    obtain ⟨hp, hr⟩ := hx.sound a t hxa
    exact (hf hp a t hr).sound b u hfb
  total := by
    intro hs
    rcases hx.total hs with ⟨a, t, hxa, ht⟩ | ⟨hnot, t, herror⟩
    · obtain ⟨hp, hr⟩ := hx.sound a t hxa
      rw [bind_of_ok hxa]
      exact (hf hp a t hr).total ht
    · exact Or.inr ⟨fun h => hnot (hP h), t, bind_of_error herror⟩

theorem Decides.of_error {t : σ} (herror : x s = .error e t) (hP : ¬ P) :
    Decides clear e P x s Q where
  sound := by
    intro a u hrun
    rw [herror] at hrun
    cases hrun
  total := fun _ => Or.inr ⟨hP, t, herror⟩

/-- A step that returns, and what is decided behind it. -/
theorem Returns.decides {f : α → EStateM ε σ β} {R : α → σ → Prop} {Q : β → σ → Prop}
    (hx : Returns clear x s R) (hf : ∀ a t, R a t → Decides clear e P (f a) t Q) :
    Decides clear e P (x >>= f) s Q :=
  .bind (.of_returns hx trivial) (fun _ => trivial) fun _ => hf

theorem Decides.get {f : σ → EStateM ε σ α} (h : Decides clear e P (f s) s Q) :
    Decides clear e P (MonadState.get >>= f) s Q where
  sound := h.sound
  total := h.total

theorem Decides.returns (hx : Decides clear e P x s Q) (hP : P) : Returns clear x s Q where
  sound := fun a t hrun => (hx.sound a t hrun).2
  total := fun hs => (hx.total hs).resolve_right fun h => h.1 hP

end Refusing

/-- From a state with `I`, `x` keeps `I` however it ends, fails only with errors
    of `E`, and returns only values of `Q`. -/
structure Safe (I : σ → Prop) (E : ε → Prop) (Q : α → Prop) (x : EStateM ε σ α) : Prop where
  keeps : Keeps I x
  fails : ∀ s e t, I s → x s = .error e t → E e
  value : ∀ s a t, I s → x s = .ok a t → Q a

namespace Safe

variable {E : ε → Prop} {P : α → Prop} {Q : β → Prop}

theorem pure {a : α} (h : P a) : Safe I E P (Pure.pure a : EStateM ε σ α) where
  keeps := Keeps.pure a
  fails := nofun
  value := by
    intro s b t _ hrun
    rw [← (pure_eq_ok.mp hrun).1]
    exact h

theorem throw {e : ε} (he : E e) : Safe I E P (MonadExcept.throw e : EStateM ε σ α) where
  keeps := Keeps.throw e
  fails := by
    intro s e' t _ hrun
    cases hrun
    exact he
  value := fun _ _ _ _ hrun => (throw_eq_ok.mp hrun).elim

theorem bind {x : EStateM ε σ α} {g : α → EStateM ε σ β} (hx : Safe I E P x)
    (hg : ∀ a, P a → Safe I E Q (g a)) : Safe I E Q (x >>= g) where
  keeps := by
    intro s hs
    have hend := hx.keeps s hs
    cases hrun : x s with
    | ok a t =>
      rw [hrun] at hend
      rw [bind_of_ok hrun]
      exact (hg a (hx.value s a t hs hrun)).keeps t hend
    | error e t =>
      rw [hrun] at hend
      rw [bind_of_error hrun]
      exact hend
  fails := by
    intro s e t hs hrun
    rcases bind_eq_error.mp hrun with herror | ⟨a, u, hxa, herror⟩
    · exact hx.fails s e t hs herror
    · exact (hg a (hx.value s a u hs hxa)).fails u e t (hx.keeps.of_ok hs hxa) herror
  value := by
    intro s b t hs hrun
    obtain ⟨a, u, hxa, hgb⟩ := bind_eq_ok.mp hrun
    exact (hg a (hx.value s a u hs hxa)).value u b t (hx.keeps.of_ok hs hxa) hgb

theorem weaken {P' : α → Prop} {x : EStateM ε σ α} (hx : Safe I E P x) (h : ∀ a, P a → P' a) :
    Safe I E P' x :=
  ⟨hx.keeps, hx.fails, fun s a t hs hrun => h a (hx.value s a t hs hrun)⟩

/-- Programs that agree from every state with `I`. -/
theorem congr {x y : EStateM ε σ α} (hx : Safe I E P x) (h : ∀ s, I s → y s = x s) :
    Safe I E P y where
  keeps := fun s hs => by rw [h s hs]; exact hx.keeps s hs
  fails := fun s e t hs hrun => hx.fails s e t hs (by rw [← h s hs]; exact hrun)
  value := fun s a t hs hrun => hx.value s a t hs (by rw [← h s hs]; exact hrun)

theorem ite {c : Prop} [Decidable c] {x y : EStateM ε σ α} (hx : c → Safe I E P x)
    (hy : ¬ c → Safe I E P y) : Safe I E P (if c then x else y) := by
  split_ifs with hc
  · exact hx hc
  · exact hy hc

theorem get {g : σ → EStateM ε σ β} (hg : ∀ s, I s → Safe I E Q (g s)) :
    Safe I E Q (MonadState.get >>= g) where
  keeps := fun s hs => (hg s hs).keeps s hs
  fails := fun s e t hs hrun => (hg s hs).fails s e t hs hrun
  value := fun s b t hs hrun => (hg s hs).value s b t hs hrun

theorem modify {f : σ → σ} {g : PUnit → EStateM ε σ β} (hf : ∀ s, I s → I (f s))
    (hg : Safe I E Q (g ⟨⟩)) : Safe I E Q ((modify f : EStateM ε σ PUnit) >>= g) where
  keeps := fun s hs => hg.keeps (f s) (hf s hs)
  fails := fun s e t hs hrun => hg.fails (f s) e t (hf s hs) hrun
  value := fun s b t hs hrun => hg.value (f s) b t (hf s hs) hrun

end Safe

/-! ## Programs that leave a part of the state alone -/

/-- The result of a run, its state changed by `f`. -/
def mapState (f : σ → σ) : EStateM.Result ε σ α → EStateM.Result ε σ α
  | .ok a s => .ok a (f s)
  | .error e s => .error e (f s)

/-- `x` neither reads nor writes what `f` changes, and fails only with errors of
    `E`. -/
structure Confined (f : σ → σ) (E : ε → Prop) (x : EStateM ε σ α) : Prop where
  run : ∀ s, x (f s) = mapState f (x s)
  fails : ∀ s e t, x s = .error e t → E e

namespace Confined

variable {f : σ → σ} {E : ε → Prop}

theorem pure (a : α) : Confined f E (Pure.pure a : EStateM ε σ α) :=
  ⟨fun _ => rfl, nofun⟩

theorem throw {e : ε} (h : E e) : Confined f E (MonadExcept.throw e : EStateM ε σ α) where
  run := fun _ => rfl
  fails := by
    intro s e' t heq
    cases heq
    exact h

theorem bind {x : EStateM ε σ α} {g : α → EStateM ε σ β} (hx : Confined f E x)
    (hg : ∀ a, Confined f E (g a)) : Confined f E (x >>= g) where
  run := by
    intro s
    cases hr : x s with
    | ok a t =>
      have hf : x (f s) = .ok a (f t) := by
        rw [hx.run s, hr]
        rfl
      rw [bind_of_ok hr, bind_of_ok hf]
      exact (hg a).run t
    | error e t =>
      have hf : x (f s) = .error e (f t) := by
        rw [hx.run s, hr]
        rfl
      rw [bind_of_error hr, bind_of_error hf]
      rfl
  fails := by
    intro s e t heq
    cases hr : x s with
    | ok a u =>
      rw [bind_of_ok hr] at heq
      exact (hg a).fails u e t heq
    | error e' u =>
      rw [bind_of_error hr] at heq
      cases heq
      exact hx.fails s _ _ hr

theorem get {g : σ → EStateM ε σ α} (hsame : ∀ s, g (f s) = g s)
    (hg : ∀ s, Confined f E (g s)) : Confined f E (MonadState.get >>= g) where
  run := by
    intro s
    rw [get_bind, get_bind, hsame s]
    exact (hg s).run s
  fails := fun s => (hg s).fails s

theorem modify {g : σ → σ} (h : ∀ s, g (f s) = f (g s)) :
    Confined f E (modify g : EStateM ε σ PUnit) where
  run := by
    intro s
    show EStateM.Result.ok PUnit.unit (g (f s)) = .ok PUnit.unit (f (g s))
    rw [h s]
  fails := nofun

theorem ite {c : Prop} [Decidable c] {x y : EStateM ε σ α} (hx : Confined f E x)
    (hy : Confined f E y) : Confined f E (if c then x else y) := by
  split_ifs with hc
  · exact hx
  · exact hy

theorem tryCatch {x : EStateM ε σ α} {g : ε → EStateM ε σ α} (hx : Confined f E x)
    (hg : ∀ e, E e → Confined f E (g e)) : Confined f E (tryCatch x g) where
  run := by
    intro s
    show EStateM.tryCatch x g (f s) = mapState f (EStateM.tryCatch x g s)
    unfold EStateM.tryCatch
    rw [hx.run s]
    cases hr : x s with
    | ok a t => rfl
    | error e t => exact (hg e (hx.fails s e t hr)).run t
  fails := by
    intro s e t heq
    have heq : EStateM.tryCatch x g s = .error e t := heq
    unfold EStateM.tryCatch at heq
    cases hr : x s with
    | ok a u =>
      rw [hr] at heq
      cases heq
    | error e' u =>
      rw [hr] at heq
      exact (hg e' (hx.fails s e' u hr)).fails u e t heq

end Confined

end Pagedb.Lib
