/-
  Pagedb.Lib.Table — finite tables keyed by an address.

  A `Table` is an association list without repeated keys.  Mathlib's `AList`
  is the carrier; added here are the read-out as pairs, the update of all values
  at once, and lookups in a plain list of rows.
-/
import Mathlib

namespace Pagedb.Lib

open List

variable {κ α β : Type}

/-- A lookup among the rows whose keys are kept. -/
theorem lookup_filter_key [DecidableEq κ] (keep : κ → Bool) {rows : List (κ × α)} {k : κ} :
    (rows.filter fun e => keep e.1).lookup k = if keep k then rows.lookup k else none := by
  induction rows with
  | nil => simp
  | cons e rows ih =>
    obtain ⟨key, value⟩ := e
    by_cases hkey : k = key
    · subst hkey
      by_cases hkeep : keep k
      · rw [filter_cons_of_pos (by exact hkeep), if_pos hkeep]
        simp
      · rw [filter_cons_of_neg (by exact hkeep), ih, if_neg hkeep, if_neg hkeep]
    · have hne : (k == key) = false := beq_eq_false_iff_ne.mpr hkey
      by_cases hkeep : keep key
      · rw [filter_cons_of_pos (by exact hkeep), lookup_cons, lookup_cons, hne]
        exact ih
      · rw [filter_cons_of_neg (by exact hkeep), ih, lookup_cons, hne]

/-- A finite table from `κ` to `α`. -/
abbrev Table (κ α : Type) : Type := AList fun _ : κ => α

namespace Table

/-- The rows of the table. -/
def toList (t : Table κ α) : List (κ × α) := t.entries.map fun e => (e.1, e.2)

/-- The table with every value replaced, knowing its key. -/
def mapVals (f : κ → α → β) (t : Table κ α) : Table κ β where
  entries := t.entries.map fun e => ⟨e.1, f e.1 e.2⟩
  nodupKeys := by
    unfold List.NodupKeys List.keys
    rw [map_map]
    exact t.nodupKeys

theorem toList_map_fst (t : Table κ α) : t.toList.map Prod.fst = t.keys := by
  unfold toList AList.keys List.keys
  rw [map_map]
  rfl

@[simp] theorem keys_mapVals (f : κ → α → β) (t : Table κ α) : (t.mapVals f).keys = t.keys := by
  unfold mapVals AList.keys List.keys
  rw [map_map]
  rfl

theorem mem_toList [DecidableEq κ] {t : Table κ α} {k : κ} {a : α} :
    (k, a) ∈ t.toList ↔ t.lookup k = some a := by
  rw [← Option.mem_def, AList.mem_lookup_iff]
  unfold toList
  rw [mem_map]
  constructor
  · rintro ⟨e, he, heq⟩
    cases heq
    exact he
  · intro h
    exact ⟨⟨k, a⟩, h, rfl⟩

theorem eq_empty_of_notMem {t : Table κ α} (h : ∀ k, k ∉ t) : t = ∅ := by
  refine AList.ext (eq_nil_iff_forall_not_mem.mpr fun e he => ?_)
  exact h e.1 (AList.mem_keys.mpr (mem_map_of_mem he))

theorem lookup_mapVals [DecidableEq κ] (f : κ → α → β) (t : Table κ α) (k : κ) :
    (t.mapVals f).lookup k = (t.lookup k).map (f k) := by
  cases h : t.lookup k with
  | none =>
    rw [Option.map_none, AList.lookup_eq_none, AList.mem_keys, keys_mapVals, ← AList.mem_keys]
    exact AList.lookup_eq_none.mp h
  | some a =>
    rw [Option.map_some]
    refine mem_toList.mp ?_
    rw [← Option.mem_def, AList.mem_lookup_iff] at h
    exact mem_map.mpr ⟨⟨k, f k a⟩, mem_map.mpr ⟨⟨k, a⟩, h, rfl⟩, rfl⟩

variable [DecidableEq κ] {t : Table κ α} {k : κ} {a : α}

theorem keys_insert_new (h : k ∉ t) : (t.insert k a).keys = k :: t.keys := by
  rw [AList.keys_insert, erase_of_not_mem (AList.mem_keys.not.mp h)]

theorem keys_insert_perm (h : k ∈ t) : (t.insert k a).keys.Perm t.keys := by
  rw [AList.keys_insert]
  exact (perm_cons_erase (AList.mem_keys.mp h)).symm

theorem keys_erase_perm (h : k ∈ t) : t.keys.Perm (k :: (t.erase k).keys) := by
  rw [AList.keys_erase]
  exact perm_cons_erase (AList.mem_keys.mp h)

end Table

end Pagedb.Lib
