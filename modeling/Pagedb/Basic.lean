/-
  Pagedb.Basic — the integer types every module shares.

  The source's counters, page ids and commit ids are `u64`.  They are `Nat`
  here; where the source saturates, so does the model.
-/
import Mathlib

namespace Pagedb

/-- A main.db page id. -/
abbrev PageId := Nat

/-- A commit id. -/
abbrev CommitId := Nat

/-- A byte string: a key, a value or a name. -/
abbrev Bytes := List UInt8

/-- Bytes compare as numbers, and byte strings then lexicographically. -/
instance instLinearOrderUInt8 : LinearOrder UInt8 where
  le_refl := UInt8.le_refl
  le_trans := fun _ _ _ => UInt8.le_trans
  lt_iff_le_not_ge := by
    intro a b
    rw [UInt8.not_le]
    exact ⟨fun h => ⟨UInt8.le_of_lt h, h⟩, fun h => h.2⟩
  le_antisymm := fun _ _ => UInt8.le_antisymm
  le_total := UInt8.le_total
  toDecidableLE := fun _ _ => inferInstance
  toDecidableEq := inferInstance
  toDecidableLT := fun _ _ => inferInstance
  min_def := fun _ _ => rfl
  max_def := fun _ _ => rfl
  compare_eq_compareOfLessAndEq := fun _ _ => rfl

/-- `u64::MAX`. -/
def U64_MAX : Nat := 2 ^ 64 - 1

/-- `u64::saturating_add`. -/
def satAdd (a b : Nat) : Nat := min (a + b) U64_MAX

end Pagedb
