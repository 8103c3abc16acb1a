/-
  Pagedb.Lib.Run — runs of a deterministic transition function.

  A system is a type of states, a type of events and a total function
  `step : σ → ε → σ`.  A run is a fold of `step` over a list of events.
  The two rules every safety theorem of the development goes through:

    * `run_invariant` — a predicate kept by every step holds after every run;
    * `run_invariant_of_meets` — the same for the runs whose every step meets
      a side condition in the state it is taken from.
-/
import Mathlib

namespace Pagedb.Lib

variable {σ ε : Type*}

/-- The state reached from `s` by taking the events of `es` in order. -/
def run (step : σ → ε → σ) (s : σ) (es : List ε) : σ := es.foldl step s

/-- Every event of the run meets `C` in the state it is taken from. -/
def Meets (step : σ → ε → σ) (C : σ → ε → Prop) : σ → List ε → Prop
  | _, [] => True
  | s, e :: es => C s e ∧ Meets step C (step s e) es

@[simp] theorem run_cons (step : σ → ε → σ) (s : σ) (e : ε) (es : List ε) :
    run step s (e :: es) = run step (step s e) es := rfl

/-- **The invariant rule under a side condition.**  The step obligation may
    use that the event meets `C` where it is taken. -/
theorem run_invariant_of_meets {step : σ → ε → σ} {C : σ → ε → Prop} {I : σ → Prop}
    (hstep : ∀ s e, I s → C s e → I (step s e)) :
    ∀ (es : List ε) (s : σ), I s → Meets step C s es → I (run step s es)
  | [], _, hs, _ => hs
  | e :: es, s, hs, hm =>
    run_invariant_of_meets hstep es (step s e) (hstep s e hs hm.1) hm.2

/-- **The invariant rule.** -/
theorem run_invariant {step : σ → ε → σ} {I : σ → Prop}
    (hstep : ∀ s e, I s → I (step s e)) (es : List ε) (s : σ) (hs : I s) :
    I (run step s es) := by
  induction es generalizing s with
  | nil => exact hs
  | cons e es ih => exact ih (step s e) (hstep s e hs)

/-- The members of a log with one more entry. -/
theorem mem_concat {α : Type*} {x a : α} {xs : List α} : x ∈ xs ++ [a] ↔ x ∈ xs ∨ x = a := by
  rw [List.mem_append, List.mem_singleton]

end Pagedb.Lib
