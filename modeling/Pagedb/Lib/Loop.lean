/-
  Pagedb.Lib.Loop — loops without a bound on their turns.

  A loop is a body that goes on from a new place or leaves with a value.  `Loop`
  relates a start to how the loop ends, with the places its turns started from; a
  loop that runs forever is related to nothing.  A program with a bound on its
  turns is the loop when the bound is never what ends it.

  Main results:
    * `Loop.of_measure` — where every turn lowers a measure the loop ends, and the
      bounded program ends as it does;
    * `Loop.of_guard` — the same for a loop that refuses to meet a key twice;
    * `Loop.nodup` — a loop that returned met no key twice.
-/
import Pagedb.Lib.Exec

namespace Pagedb.Lib

open List

variable {ε σ α β κ : Type}

/-- `loop { body }` from `a` in the state `s` takes the given turns and ends with the
    given outcome. -/
inductive Loop (body : α → EStateM ε σ (α ⊕ β)) : α → σ → List α → EStateM.Result ε σ β → Prop
  | fails {a : α} {s t : σ} {e : ε} (h : body a s = .error e t) : Loop body a s [a] (.error e t)
  | leaves {a : α} {s t : σ} {b : β} (h : body a s = .ok (.inr b) t) :
      Loop body a s [a] (.ok b t)
  | again {a a' : α} {s t : σ} {turns : List α} {r : EStateM.Result ε σ β}
      (h : body a s = .ok (.inl a') t) (rest : Loop body a' t turns r) :
      Loop body a s (a :: turns) r

/-- With one more turn, the program `f` takes a turn of the body first. -/
def Unrolls (body : α → EStateM ε σ (α ⊕ β)) (f : Nat → α → EStateM ε σ β) (turns : Nat) (a : α)
    (s : σ) : Prop :=
  f (turns + 1) a s = (body a >>= Sum.elim (f turns) pure) s

/-- From every state of `S`, `f` ends as the loop does, and within `E` and `Q`. -/
structure EndsAsLoop (S : σ → Prop) (E : ε → Prop) (Q : β → Prop)
    (body : α → EStateM ε σ (α ⊕ β)) (a : α) (f : EStateM ε σ β) : Prop where
  safe : Safe S E Q f
  loop : ∀ s, S s → ∃ turns, Loop body a s turns (f s)

section Loop

variable {body : α → EStateM ε σ (α ⊕ β)} {f : Nat → α → EStateM ε σ β} {S : σ → Prop}
  {E : ε → Prop} {J : α → Prop} {Q : β → Prop}

theorem EndsAsLoop.congr {a : α} {x y : EStateM ε σ β} (hx : EndsAsLoop S E Q body a x)
    (h : ∀ s, S s → y s = x s) : EndsAsLoop S E Q body a y where
  safe := hx.safe.congr h
  loop := fun s hs => by
    rw [h s hs]
    exact hx.loop s hs

/-- **A measure ends the loop.**  Every turn that goes on lowers `μ`, so a bounded
    program with more than `μ` turns never runs out of them. -/
theorem Loop.of_measure {μ : α → Nat}
    (hturn : ∀ a, J a → Safe S E (Sum.elim (fun a' => J a' ∧ μ a' < μ a) Q) (body a))
    (hf : ∀ n a s, J a → S s → μ a ≤ n → Unrolls body f n a s) (n : Nat) :
    ∀ a, J a → μ a < n → EndsAsLoop S E Q body a (f n a) := by
  induction n with
  | zero =>
    intro a _ hn
    exact absurd hn (Nat.not_lt_zero _)
  | succ n ih =>
    intro a ha hn
    have hsame : ∀ s, S s → f (n + 1) a s = (body a >>= Sum.elim (f n) pure) s :=
      fun s hs => hf n a s ha hs (Nat.le_of_lt_succ hn)
    have hnext : ∀ x, Sum.elim (fun a' => J a' ∧ μ a' < μ a) Q x →
        Safe S E Q (Sum.elim (f n) pure x : EStateM ε σ β) := by
      intro x hx
      cases x with
      | inr b => exact Safe.pure hx
      | inl a' => exact (ih a' hx.1 (Nat.lt_of_lt_of_le hx.2 (Nat.le_of_lt_succ hn))).safe
    refine ⟨((hturn a ha).bind hnext).congr hsame, fun s hs => ?_⟩
    rw [hsame s hs]
    cases hrun : body a s with
    | error e t =>
      rw [bind_of_error hrun]
      exact ⟨[a], .fails hrun⟩
    | ok x t =>
      have ht := (hturn a ha).keeps.of_ok hs hrun
      have hx := (hturn a ha).value s x t hs hrun
      rw [bind_of_ok hrun]
      cases x with
      | inr b => exact ⟨[a], .leaves hrun⟩
      | inl a' =>
        obtain ⟨turns, hrest⟩ :=
          (ih a' hx.1 (Nat.lt_of_lt_of_le hx.2 (Nat.le_of_lt_succ hn))).loop t ht
        exact ⟨a :: turns, .again hrun hrest⟩

/-- **A guard against repeats ends the loop.**  Every turn that goes on adds to the
    guard a key that it did not hold, out of at most `count`. -/
theorem Loop.of_guard {present : κ → Prop} {count : Nat}
    (hcount : ∀ keys : List κ, keys.Nodup → (∀ k ∈ keys, present k) → keys.length ≤ count)
    (seen : α → List κ)
    (hturn : ∀ a, J a → Safe S E (Sum.elim (fun a' => J a' ∧ ∃ k, present k ∧ k ∉ seen a
      ∧ (seen a').Perm (k :: seen a)) Q) (body a))
    (hf : ∀ n a s, J a → S s → Unrolls body f n a s) {a : α} (ha : J a) :
    EndsAsLoop S E Q body a (f (count + 1) a) := by
  -- the keys met since the start are distinct, so there are at most `count` of them
  let New : α → Prop := fun b => ∃ keys, keys.Nodup ∧ (∀ k ∈ keys, present k)
    ∧ (seen b).Perm (keys ++ seen a)
  refine Loop.of_measure (J := fun b => J b ∧ New b)
    (μ := fun b => count + (seen a).length - (seen b).length) ?_
    (fun n b s hb hs _ => hf n b s hb.1 hs) (count + 1) a
    ⟨ha, [], nodup_nil, nofun, List.Perm.refl _⟩ (by omega)
  rintro b ⟨hb, keys, hnodup, hpresent, hperm⟩
  refine (hturn b hb).weaken fun x hx => ?_
  cases x with
  | inr c => exact hx
  | inl b' =>
    obtain ⟨hb', k, hk, hnew, hperm'⟩ := hx
    have hmore : (k :: keys).Nodup :=
      nodup_cons.mpr ⟨fun hmem => hnew (hperm.mem_iff.mpr (mem_append_left _ hmem)), hnodup⟩
    have hmore' : ∀ q ∈ k :: keys, present q := forall_mem_cons.mpr ⟨hk, hpresent⟩
    have hlen := hperm.length_eq
    have hlen' := hperm'.length_eq
    have hle := hcount (k :: keys) hmore hmore'
    rw [length_append] at hlen
    rw [length_cons] at hlen' hle
    refine ⟨⟨hb', k :: keys, hmore, hmore', hperm'.trans (hperm.cons k)⟩, ?_⟩
    show _ - (seen b').length < _ - (seen b).length
    omega

/-- **A loop that returned met no key twice**, if every turn that did not fail met a
    key outside its guard, and the next one has that key in its guard. -/
theorem Loop.nodup (key : α → κ) (seen : α → List κ)
    (hturn : ∀ a, J a → Safe S E (fun x => key a ∉ seen a
      ∧ ∀ a', x = .inl a' → J a' ∧ seen a' = key a :: seen a) (body a))
    {a : α} {s : σ} {turns : List α} {r : EStateM.Result ε σ β} (h : Loop body a s turns r)
    (ha : J a) (hs : S s) (hok : isOk r = true) :
    (turns.map key).Nodup ∧ ∀ k ∈ turns.map key, k ∉ seen a := by
  induction h with
  | fails _ => cases hok
  | leaves hrun =>
    refine ⟨nodup_singleton _, fun k hk => ?_⟩
    rw [mem_singleton.mp hk]
    exact ((hturn _ ha).value _ _ _ hs hrun).1
  | again hrun _ ih =>
    obtain ⟨hnew, hnext⟩ := (hturn _ ha).value _ _ _ hs hrun
    obtain ⟨ha', hgrows⟩ := hnext _ rfl
    obtain ⟨hnodup, hout⟩ := ih ha' ((hturn _ ha).keeps.of_ok hs hrun) hok
    rw [hgrows] at hout
    rw [map_cons]
    refine ⟨nodup_cons.mpr ⟨fun hmem => hout _ hmem mem_cons_self, hnodup⟩, ?_⟩
    refine forall_mem_cons.mpr ⟨hnew, fun k hk hmem => ?_⟩
    exact hout k hk (mem_cons_of_mem _ hmem)

end Loop

end Pagedb.Lib
