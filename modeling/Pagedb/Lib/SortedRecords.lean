/-
  Pagedb.Lib.SortedRecords — records in key order.

  A key cuts an ordered list of records into those left of it, at most one at
  it, and those right of it (`exists_around`).  Lookup, insertion and removal
  are read off that cut, in a leaf and in the whole read-out of a tree alike.

    * `find_around`, `find_around_ne` — lookups through a cut;
    * `InOrder.around`, `InOrder.separate` — a read-out stays in order when a
      record is set, dropped, or a separator put in front of one;
    * `partitionPoint_eq`, `binarySearchByKey_eq_some` — the binary searches.
-/
import Pagedb.Lib.SearchTree

namespace Pagedb.Lib

open List

variable {K V : Type} [LinearOrder K]

/-! ## §1. Cutting at a key -/

/-- The value of the first record with key `k`. -/
def find (k : K) (records : List (K × V)) : Option V :=
  (records.find? fun r => decide (r.1 = k)).map Prod.snd

/-- `left` and `right` lie on the two sides of `k`. -/
structure Around (k : K) (left right : List (K × V)) : Prop where
  lt : ∀ r ∈ left, r.1 < k
  gt : ∀ r ∈ right, k < r.1

/-- The records with `value` at `k` between the two sides. -/
def around (left : List (K × V)) (k : K) (value : Option V) (right : List (K × V)) : List (K × V) :=
  left ++ (value.map fun v => (k, v)).toList ++ right

section Cut

variable {k : K} {left right : List (K × V)} {value : Option V}

theorem find_eq_none {records : List (K × V)} (h : ∀ r ∈ records, r.1 ≠ k) :
    find k records = none := by
  unfold find
  rw [find?_eq_none.mpr fun r hr => by simpa using h r hr]
  rfl

theorem find_isSome_iff {records : List (K × V)} :
    (find k records).isSome = true ↔ ∃ r ∈ records, r.1 = k := by
  unfold find
  rw [Option.isSome_map, find?_isSome]
  simp only [decide_eq_true_eq]

theorem find_append (a b : List (K × V)) : find k (a ++ b) = (find k a).or (find k b) := by
  unfold find
  rw [find?_append, Option.map_or]

theorem find_around (h : Around k left right) : find k (around left k value right) = value := by
  unfold around
  rw [find_append, find_append, find_eq_none fun r hr => ne_of_lt (h.lt r hr),
    find_eq_none fun r hr => ne_of_gt (h.gt r hr)]
  cases value with
  | none => rfl
  | some v =>
    show ((none : Option V).or (find k [(k, v)])).or none = some v
    unfold find
    simp

theorem find_around_ne {j : K} (hj : j ≠ k) :
    find j (around left k value right) = (find j left).or (find j right) := by
  unfold around
  rw [find_append, find_append]
  cases value with
  | none =>
    show ((find j left).or (find j [])).or (find j right) = _
    unfold find
    simp
  | some v =>
    have hnone : find j [(k, v)] = none :=
      find_eq_none fun r hr => by rw [mem_singleton.mp hr]; exact hj.symm
    show ((find j left).or (find j [(k, v)])).or (find j right) = _
    rw [hnone, Option.or_none]

end Cut

/-- **A key cuts an ordered list of records.** -/
theorem exists_around (k : K) {records : List (K × V)}
    (hs : records.Pairwise fun a b => a.1 < b.1) :
    ∃ left value right, Around k left right ∧ records = around left k value right := by
  induction records with
  | nil => exact ⟨[], none, [], ⟨nofun,
      nofun⟩, rfl⟩
  | cons r records ih =>
    obtain ⟨hr, hrest⟩ := pairwise_cons.mp hs
    rcases lt_trichotomy r.1 k with hlt | heq | hgt
    · obtain ⟨left, value, right, ha, rfl⟩ := ih hrest
      refine ⟨r :: left, value, right, ⟨?_, ha.gt⟩, rfl⟩
      intro s hs
      rcases mem_cons.mp hs with rfl | hs
      · exact hlt
      · exact ha.lt s hs
    · refine ⟨[], some r.2, records, ⟨nofun, ?_⟩, ?_⟩
      · intro s hs
        rw [← heq]
        exact hr s hs
      · rw [← heq]
        rfl
    · refine ⟨[], none, r :: records, ⟨nofun, ?_⟩, rfl⟩
      intro s hs
      rcases mem_cons.mp hs with rfl | hs
      · exact hgt
      · exact lt_trans hgt (hr s hs)

/-! ## §2. Cuts of a read-out -/

/-- The records as items. -/
def entries (records : List (K × V)) : List (Item K V) :=
  records.map fun r => Item.entry r.1 r.2

theorem inOrder_entries {records : List (K × V)} :
    InOrder (entries records) ↔ records.Pairwise fun a b => a.1 < b.1 := by
  unfold InOrder entries
  rw [pairwise_map]
  rfl

variable {k : K} {a b : List (Item K V)}

theorem Item.before_entries {left : List (K × V)} (h : ∀ r ∈ left, r.1 < k) :
    ∀ x ∈ entries left, x.Before k := by
  intro x hx
  obtain ⟨r, hr, rfl⟩ := mem_map.mp hx
  exact h r hr

theorem Item.after_entries {right : List (K × V)} (h : ∀ r ∈ right, k < r.1) :
    ∀ x ∈ entries right, x.After k := by
  intro x hx
  obtain ⟨r, hr, rfl⟩ := mem_map.mp hx
  exact h r hr

theorem Around.of_items (ha : ∀ x ∈ a, x.Before k) (hb : ∀ x ∈ b, x.After k) :
    Around k (recordsOf a) (recordsOf b) where
  lt := fun _ hr => ha _ (mem_recordsOf.mp hr)
  gt := fun _ hr => hb _ (mem_recordsOf.mp hr)

/-- Setting or dropping the record at `k` keeps a read-out in order. -/
theorem InOrder.around (value : Option V) (ha : InOrder a) (hb : InOrder b)
    (hak : ∀ x ∈ a, x.Before k) (hbk : ∀ x ∈ b, x.After k) :
    InOrder (a ++ (value.map fun v => Item.entry k v).toList ++ b) := by
  cases value with
  | none =>
    rw [Option.map_none, Option.toList_none, append_nil]
    exact pairwise_append.mpr ⟨ha, hb, fun x hx y hy => (hak x hx).lt_after (hbk y hy)⟩
  | some v =>
    rw [Option.map_some, Option.toList_some, append_assoc]
    refine pairwise_append.mpr ⟨ha, pairwise_cons.mpr ⟨?_, hb⟩, ?_⟩
    · intro y hy
      exact (hbk y hy).entry_lt v
    · intro x hx y hy
      rcases mem_cons.mp hy with rfl | hy
      · exact (hak x hx).lt_entry v
      · exact (hak x hx).lt_after (hbk y hy)

/-- A separator goes in front of a record that has a record to its left. -/
theorem InOrder.separate {j s : K} {u w : V}
    (h : InOrder (a ++ Item.entry j u :: Item.entry s w :: b)) :
    InOrder (a ++ Item.entry j u :: Item.sep s :: Item.entry s w :: b) := by
  obtain ⟨ha, hrest, hcross⟩ := pairwise_append.mp h
  obtain ⟨hj, hrest⟩ := pairwise_cons.mp hrest
  obtain ⟨hs, hb⟩ := pairwise_cons.mp hrest
  have hjs : j < s := hj (.entry s w) mem_cons_self
  -- left of `j` is left of the separator, since `j` lies strictly between
  have hleft : ∀ x ∈ a, x.lt (.sep s) := by
    intro x hx
    have hxj := hcross x hx (.entry j u) mem_cons_self
    cases x with
    | sep c => exact lt_of_le_of_lt hxj hjs
    | entry c v => exact lt_trans hxj hjs
  have hright : ∀ y ∈ b, (Item.sep s : Item K V).lt y := by
    intro y hy
    have hsy := hs y hy
    cases y with
    | sep c => exact hsy
    | entry c v => exact le_of_lt hsy
  refine pairwise_append.mpr ⟨ha, ?_, ?_⟩
  · refine pairwise_cons.mpr ⟨?_, pairwise_cons.mpr ⟨?_, hrest⟩⟩
    · intro y hy
      rcases mem_cons.mp hy with rfl | hy
      · exact hjs
      · exact hj y hy
    · intro y hy
      rcases mem_cons.mp hy with rfl | hy
      · exact le_refl s
      · exact hright y hy
  · intro x hx y hy
    rcases mem_cons.mp hy with rfl | hy
    · exact hcross x hx _ mem_cons_self
    · rcases mem_cons.mp hy with rfl | hy
      · exact hleft x hx
      · exact hcross x hx y (mem_cons_of_mem _ hy)

/-! ## §3. Binary search -/

/-- The first index in `[lo, hi)` where `p` fails, by halving. -/
def partitionPoint (p : Nat → Bool) : Nat → Nat → Nat → Nat
  | 0, lo, _ => lo
  | turns + 1, lo, hi =>
    if lo < hi then
      let mid := lo + (hi - lo) / 2
      if p mid then partitionPoint p turns (mid + 1) hi else partitionPoint p turns lo mid
    else lo

/-- The search ends at the boundary of a predicate that holds below `m` and
    fails from `m` on. -/
theorem partitionPoint_eq {p : Nat → Bool} {m : Nat} (hbelow : ∀ i < m, p i = true)
    (turns : Nat) : ∀ lo hi, lo ≤ m → m ≤ hi → hi - lo ≤ turns →
      (∀ i, m ≤ i → i < hi → p i = false) → partitionPoint p turns lo hi = m := by
  induction turns with
  | zero =>
    intro lo hi hlo hhi hturns _
    show lo = m
    omega
  | succ turns ih =>
    intro lo hi hlo hhi hturns habove
    show (if lo < hi then _ else lo) = m
    split_ifs with hlt
    · show (if p (lo + (hi - lo) / 2) then _ else _) = m
      cases hp : p (lo + (hi - lo) / 2) with
      | true =>
        have hmid : lo + (hi - lo) / 2 < m := by
          by_contra hge
          have := habove (lo + (hi - lo) / 2) (by omega) (by omega)
          rw [hp] at this
          cases this
        rw [if_pos rfl]
        exact ih _ hi hmid hhi (by omega) habove
      | false =>
        have hmid : m ≤ lo + (hi - lo) / 2 := by
          by_contra hlt'
          have := hbelow (lo + (hi - lo) / 2) (by omega)
          rw [hp] at this
          cases this
        rw [if_neg Bool.false_ne_true]
        exact ih lo _ hlo hmid (by omega) fun i h1 h2 => habove i h1 (by omega)
    · omega

theorem partitionPoint_le {p : Nat → Bool} (turns : Nat) :
    ∀ {lo hi : Nat}, lo ≤ hi → partitionPoint p turns lo hi ≤ hi := by
  induction turns with
  | zero =>
    intro lo hi hle
    exact hle
  | succ turns ih =>
    intro lo hi hle
    unfold partitionPoint
    split_ifs with hlt
    · dsimp only
      split_ifs with hp
      · exact ih (by omega)
      · exact Nat.le_trans (ih (by omega)) (by omega)
    · exact hle

/-- An index in `[lo, hi)` that compares equal, by halving. -/
def binaryFind (c : Nat → Ordering) : Nat → Nat → Nat → Option Nat
  | 0, _, _ => none
  | turns + 1, lo, hi =>
    if lo < hi then
      let mid := lo + (hi - lo) / 2
      match c mid with
      | .lt => binaryFind c turns (mid + 1) hi
      | .gt => binaryFind c turns lo mid
      | .eq => some mid
    else none

/-- What is found compares equal. -/
theorem binaryFind_eq_some {c : Nat → Ordering} {i : Nat} (turns : Nat) :
    ∀ {lo hi : Nat}, binaryFind c turns lo hi = some i → lo ≤ i ∧ i < hi ∧ c i = .eq := by
  induction turns with
  | zero =>
    intro lo hi h
    cases h
  | succ turns ih =>
    intro lo hi h
    unfold binaryFind at h
    by_cases hlt : lo < hi
    · rw [if_pos hlt] at h
      dsimp only at h
      cases hc : c (lo + (hi - lo) / 2) with
      | lt =>
        rw [hc] at h
        obtain ⟨h₁, h₂, h₃⟩ := ih h
        exact ⟨by omega, h₂, h₃⟩
      | gt =>
        rw [hc] at h
        obtain ⟨h₁, h₂, h₃⟩ := ih h
        exact ⟨h₁, by omega, h₃⟩
      | eq =>
        rw [hc] at h
        cases h
        exact ⟨by omega, by omega, hc⟩
    · rw [if_neg hlt] at h
      cases h

/-- The one index that compares equal is found, if those below compare less and
    those above greater. -/
theorem binaryFind_eq {c : Nat → Ordering} {m : Nat} (hbelow : ∀ i < m, c i = .lt) (hm : c m = .eq)
    (turns : Nat) : ∀ lo hi, lo ≤ m → m < hi → hi - lo ≤ turns →
      (∀ i, m < i → i < hi → c i = .gt) → binaryFind c turns lo hi = some m := by
  induction turns with
  | zero =>
    intro lo hi hlo hhi hturns _
    omega
  | succ turns ih =>
    intro lo hi hlo hhi hturns habove
    unfold binaryFind
    rw [if_pos (by omega)]
    dsimp only
    rcases Nat.lt_trichotomy (lo + (hi - lo) / 2) m with hlt | heq | hgt
    · rw [hbelow _ hlt]
      exact ih _ hi (by omega) hhi (by omega) habove
    · rw [heq, hm]
    · rw [habove _ hgt (by omega)]
      exact ih lo _ hlo hgt (by omega) fun i h₁ h₂ => habove i h₁ (by omega)

/-- The loop of a slice's `binary_search_by_key`: of the `size` entries from `base`,
    the half that can still hold the key. -/
def searchBase (greater : Nat → Bool) (base size : Nat) : Nat :=
  if size ≤ 1 then base
  else
    let mid := base + size / 2
    searchBase greater (if greater mid then base else mid) (size - size / 2)
termination_by size

/-- `binary_search_by_key`, with the entry at the place it returns. -/
def binarySearchByKey (key : V → K) (xs : List V) (k : K) : Option V :=
  (xs[searchBase (fun i => (xs[i]?).all fun x => k < key x) 0 xs.length]?).filter (key · = k)

theorem searchBase_eq {greater : Nat → Bool} {m base size : Nat}
    (h : ∀ i, greater i = true ↔ m < i) (hbase : base ≤ m) (hsize : m < base + size) :
    searchBase greater base size = m := by
  fun_induction searchBase greater base size with
  | case1 base size hone => omega
  | case2 base size hmany mid ih =>
    refine ih ?_ ?_
    · split_ifs with hmid
      · exact hbase
      · exact Nat.le_of_not_lt fun hlt => hmid ((h mid).mpr hlt)
    · split_ifs with hmid
      · have := (h mid).mp hmid
        omega
      · omega

/-- On entries with ascending keys the search finds the entry with the key. -/
theorem binarySearchByKey_eq_some {key : V → K} {xs : List V} {k : K} {x : V}
    (hasc : xs.Pairwise fun a b => key a < key b) :
    binarySearchByKey key xs k = some x ↔ x ∈ xs ∧ key x = k := by
  unfold binarySearchByKey
  rw [Option.filter_eq_some_iff, decide_eq_true_eq]
  constructor
  · rintro ⟨hx, hk⟩
    exact ⟨mem_of_getElem? hx, hk⟩
  · rintro ⟨hx, rfl⟩
    obtain ⟨m, hm, rfl⟩ := getElem_of_mem hx
    rw [pairwise_iff_getElem] at hasc
    have hcut : ∀ i, (xs[i]?).all (fun y => decide (key xs[m] < key y)) = true ↔ m < i := by
      intro i
      constructor
      · intro hall
        by_contra hle
        have hi : i < xs.length := by omega
        rw [getElem?_eq_getElem hi] at hall
        have hgt : key xs[m] < key xs[i] := of_decide_eq_true hall
        rcases Nat.eq_or_lt_of_le (Nat.le_of_not_lt hle) with rfl | hlt
        · exact lt_irrefl _ hgt
        · exact lt_asymm (hasc i m hi hm hlt) hgt
      · intro hlt
        cases hi : xs[i]? with
        | none => rfl
        | some y =>
          obtain ⟨hlen, rfl⟩ := List.getElem?_eq_some_iff.mp hi
          exact decide_eq_true (hasc m i hm hlen hlt)
    rw [searchBase_eq hcut (Nat.zero_le m) (by omega)]
    exact ⟨getElem?_eq_getElem hm, rfl⟩

end Pagedb.Lib
