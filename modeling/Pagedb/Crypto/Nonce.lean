/-
  Pagedb.Crypto.Nonce — the main.db nonce generator (`crypto/nonce.rs`).

  A nonce is a six-byte prefix taken from the file id and a 48-bit counter.
  The generator may run at most `budget` values ahead of the anchor recorded
  in the durable header, and `budget` is clamped to `MAX_ANCHOR_BUDGET`
  because no file records the budget an earlier run used.

  Machine integers: the counters are `u64` and every addition of the source
  saturates, so `satAdd` is `min (a + b) (2^64 - 1)`; subtraction saturates at
  zero as `Nat` subtraction does.

  Main results:
    * `MainDbNonceGen.recover_next_gt` — the recovered generator starts above
      every counter inside the widest window over its anchor;
    * `MainDbNonceGen.nextNonce_eq_ok` — what an issued nonce is, and what it
      leaves behind.
-/
import Pagedb.Basic

namespace Pagedb

/-- A nonce: the file's prefix and the 48-bit counter. -/
structure Nonce where
  filePrefix : Bytes
  counter : Nat
  deriving DecidableEq, Repr

/-- `Nonce::COUNTER_MAX`, the largest 48-bit counter. -/
def Nonce.COUNTER_MAX : Nat := 2 ^ 48 - 1

/-- `MAX_ANCHOR_BUDGET`: the widest window any run issues in. -/
def MAX_ANCHOR_BUDGET : Nat := 2 ^ 20

/-- The two ways `next_nonce` refuses. -/
inductive NonceError where
  | nonceCounterExhausted
  | aborted
  deriving DecidableEq, Repr

/-- `MainDbNonceGen`.  The budget field carries the clamp of both constructors,
    so a generator with a wider window cannot be built. -/
structure MainDbNonceGen where
  filePrefix : Bytes
  next : Nat
  durableAnchor : Nat
  budget : Nat
  budget_le : budget ≤ MAX_ANCHOR_BUDGET

namespace MainDbNonceGen

/-- `MainDbNonceGen::new`: the generator of a store being created. -/
def new (fileId : Bytes) (budget : Nat) : MainDbNonceGen where
  filePrefix := fileId.take 6
  next := 1
  durableAnchor := 0
  budget := min budget MAX_ANCHOR_BUDGET
  budget_le := Nat.min_le_right _ _

/-- `MainDbNonceGen::recover`: the generator of a store being opened. -/
def recover (fileId : Bytes) (recoveredAnchor budget : Nat) : MainDbNonceGen where
  filePrefix := fileId.take 6
  next := satAdd (satAdd recoveredAnchor MAX_ANCHOR_BUDGET) 1
  durableAnchor := recoveredAnchor
  budget := min budget MAX_ANCHOR_BUDGET
  budget_le := Nat.min_le_right _ _

/-- `next_nonce`. -/
def nextNonce (g : MainDbNonceGen) : Except NonceError (Nonce × MainDbNonceGen) :=
  if g.next > Nonce.COUNTER_MAX then .error .nonceCounterExhausted
  else if g.next > satAdd g.durableAnchor g.budget then .error .aborted
  else .ok (⟨g.filePrefix, g.next⟩, { g with next := g.next + 1 })

/-- `pending_anchor`: the largest counter already issued. -/
def pendingAnchor (g : MainDbNonceGen) : Nat := g.next - 1

/-- `window_remaining`. -/
def windowRemaining (g : MainDbNonceGen) : Nat :=
  satAdd g.durableAnchor g.budget - g.pendingAnchor

/-- `commit_anchor`. -/
def commitAnchor (g : MainDbNonceGen) (persisted : Nat) : Except NonceError MainDbNonceGen :=
  if persisted < g.durableAnchor ∨ g.pendingAnchor < persisted then .error .aborted
  else .ok { g with durableAnchor := persisted }

/-! ## What each operation does -/

theorem nextNonce_eq_ok {g g' : MainDbNonceGen} {n : Nonce} (h : g.nextNonce = .ok (n, g')) :
    n = ⟨g.filePrefix, g.next⟩ ∧ g' = { g with next := g.next + 1 }
      ∧ g.next ≤ Nonce.COUNTER_MAX ∧ g.next ≤ g.durableAnchor + MAX_ANCHOR_BUDGET := by
  unfold nextNonce at h
  split at h
  · cases h
  next hmax =>
    split at h
    · cases h
    next hwin =>
      injection h with h
      injection h with hn hg
      refine ⟨hn.symm, hg.symm, by omega, ?_⟩
      have hb := g.budget_le
      unfold satAdd at hwin
      omega

theorem commitAnchor_eq_ok {g g' : MainDbNonceGen} {p : Nat} (h : g.commitAnchor p = .ok g') :
    g.durableAnchor ≤ p ∧ p ≤ g.pendingAnchor ∧ g' = { g with durableAnchor := p } := by
  unfold commitAnchor at h
  split at h
  · cases h
  next hp =>
    injection h with h
    exact ⟨by omega, by omega, h.symm⟩

/-- **Recovery skips the whole window.**  Any counter an earlier run could issue
    over an anchor no larger than the recovered one is below `next`. -/
theorem recover_next_gt (fileId : Bytes) (a b n : Nat)
    (hn : n ≤ a + MAX_ANCHOR_BUDGET) (hmax : n ≤ Nonce.COUNTER_MAX) :
    n < (recover fileId a b).next := by
  simp only [recover, satAdd, U64_MAX, Nonce.COUNTER_MAX] at *
  omega

theorem recover_anchor_lt_next (fileId : Bytes) (a b : Nat) (ha : a < U64_MAX) :
    a < (recover fileId a b).next := by
  simp only [recover, satAdd, U64_MAX] at *
  omega

theorem recover_next_le (fileId : Bytes) (a b : Nat) : (recover fileId a b).next ≤ U64_MAX := by
  simp only [recover, satAdd]
  omega

end MainDbNonceGen

end Pagedb
