/-
  Pagedb.Lib.Paging — reading an ascending list of records page by page.

  A page is the first `n` records from a key on; the next page starts behind the
  last key of the page.  Read downwards, a page is the last `n` records below a
  key, and the next one ends at the smallest key of the page.

    * `since_after_page`, `below_after_page` — a page and what is left of it;
    * `takeWhile_page`     — a page of the records of one key range;
    * `streamPages_eq`     — pages read to the end visit every record once;
    * `append_bot_le_iff`  — the key behind a byte string;
    * `prefix_of_between`  — the keys with one prefix are a range.
-/
import Pagedb.Lib.Exec
import Pagedb.Lib.SortedRecords

namespace Pagedb.Lib

open List

variable {K V : Type} [LinearOrder K]

/-- Records in strictly ascending key order. -/
def Ascending (records : List (K × V)) : Prop := records.Pairwise fun a b => a.1 < b.1

instance (records : List (K × V)) : Decidable (Ascending records) :=
  inferInstanceAs (Decidable (records.Pairwise fun a b => a.1 < b.1))

/-- The records from `s` on. -/
def since (s : K) (records : List (K × V)) : List (K × V) :=
  records.filter fun r => decide (s ≤ r.1)

/-- The records below `b`. -/
def below (b : K) (records : List (K × V)) : List (K × V) :=
  records.filter fun r => decide (r.1 < b)

theorem InOrder.ascending {items : List (Item K V)} (h : InOrder items) :
    Ascending (recordsOf items) := by
  refine List.Pairwise.filterMap _ ?_ h
  intro x y hxy r hr r' hr'
  cases x with
  | sep a => cases hr
  | entry a v =>
    cases y with
    | sep b => cases hr'
    | entry b w =>
      cases hr
      cases hr'
      exact hxy

section Cut

variable {s b : K} {records xs ys : List (K × V)}

theorem Ascending.since (h : Ascending records) (s : K) : Ascending (since s records) :=
  List.Pairwise.filter _ h

theorem Ascending.below (h : Ascending records) (b : K) : Ascending (below b records) :=
  List.Pairwise.filter _ h

theorem since_append (s : K) (xs ys : List (K × V)) : since s (xs ++ ys) = since s xs ++ since s ys :=
  filter_append xs ys

theorem below_append (b : K) (xs ys : List (K × V)) : below b (xs ++ ys) = below b xs ++ below b ys :=
  filter_append xs ys

theorem since_eq_self (h : ∀ r ∈ xs, s ≤ r.1) : since s xs = xs :=
  filter_eq_self.mpr fun r hr => decide_eq_true (h r hr)

theorem since_eq_nil (h : ∀ r ∈ xs, r.1 < s) : since s xs = [] :=
  filter_eq_nil_iff.mpr fun r hr => by simpa using h r hr

theorem below_eq_self (h : ∀ r ∈ xs, r.1 < b) : below b xs = xs :=
  filter_eq_self.mpr fun r hr => decide_eq_true (h r hr)

theorem below_eq_nil (h : ∀ r ∈ xs, b ≤ r.1) : below b xs = [] :=
  filter_eq_nil_iff.mpr fun r hr => by simpa using h r hr

theorem mem_since {r : K × V} : r ∈ since s records ↔ r ∈ records ∧ s ≤ r.1 := by
  simp [since]

theorem mem_below {r : K × V} : r ∈ below b records ↔ r ∈ records ∧ r.1 < b := by
  simp [below]

theorem below_since_comm (s b : K) (records : List (K × V)) :
    below b (since s records) = since s (below b records) := by
  unfold below since
  rw [filter_filter, filter_filter]
  simp only [Bool.and_comm]

/-- In an ascending list a lookup finds every record. -/
theorem Ascending.find_eq_some (h : Ascending records) {k : K} {v : V} :
    find k records = some v ↔ (k, v) ∈ records := by
  induction records with
  | nil => exact ⟨fun hf => (by cases hf), nofun⟩
  | cons r records ih =>
    obtain ⟨hr, hrest⟩ := pairwise_cons.mp h
    unfold find
    by_cases hk : r.1 = k
    · rw [find?_cons_of_pos (by simpa using hk)]
      constructor
      · intro hv
        cases hv
        exact hk ▸ mem_cons_self
      · intro hm
        rcases mem_cons.mp hm with rfl | hm
        · rfl
        · exact absurd hk (ne_of_lt (hr _ hm))
    · rw [find?_cons_of_neg (by simpa using hk)]
      show find k records = some v ↔ _
      rw [ih hrest, mem_cons]
      constructor
      · exact Or.inr
      · rintro (rfl | hm)
        · exact absurd rfl hk
        · exact hm

/-- **An ascending list is given by its lookups.** -/
theorem Ascending.eq_of_find {xs ys : List (K × V)} (hx : Ascending xs) (hy : Ascending ys)
    (h : ∀ k, find k xs = find k ys) : xs = ys := by
  have hmem : ∀ r, r ∈ xs ↔ r ∈ ys := by
    rintro ⟨k, v⟩
    rw [← hx.find_eq_some, ← hy.find_eq_some, h k]
  have hnodup : ∀ {zs : List (K × V)}, Ascending zs → zs.Nodup := fun hz =>
    hz.imp fun hab heq => absurd (congrArg Prod.fst heq) (ne_of_lt hab)
  refine ((perm_ext_iff_of_nodup (hnodup hx) (hnodup hy)).mpr hmem).eq_of_pairwise ?_ hx hy
  intro a b _ _ hab hba
  exact absurd hab (not_lt.mpr (le_of_lt hba))

/-- **A key cuts an ascending list in two.** -/
theorem below_append_since (h : Ascending records) (s : K) :
    below s records ++ since s records = records := by
  induction records with
  | nil => rfl
  | cons r records ih =>
    obtain ⟨hr, hrest⟩ := pairwise_cons.mp h
    by_cases hlt : r.1 < s
    · have hsince : since s (r :: records) = since s records := by
        simp [since, not_le.mpr hlt]
      have hbelow : below s (r :: records) = r :: below s records := by
        simp [below, hlt]
      rw [hsince, hbelow, cons_append, ih hrest]
    · have hle : s ≤ r.1 := not_lt.mp hlt
      have hall : ∀ x ∈ r :: records, s ≤ x.1 := by
        intro x hx
        rcases mem_cons.mp hx with rfl | hx
        · exact hle
        · exact hle.trans (hr x hx).le
      rw [below_eq_nil hall, since_eq_self hall, nil_append]

end Cut

section Page

variable {s b next : K} {records xs ys : List (K × V)} {last : K × V} {n : Nat}

/-- The records behind the last one of the front part are the back part. -/
theorem since_behind (h : Ascending (xs ++ ys)) (hlast : xs.getLast? = some last)
    (hnext : ∀ k, next ≤ k ↔ last.1 < k) : since next (xs ++ ys) = ys := by
  obtain ⟨front, rfl⟩ := getLast?_eq_some_iff.mp hlast
  rw [since_append, since_eq_nil, since_eq_self, nil_append]
  · intro r hr
    exact (hnext r.1).mpr ((pairwise_append.mp h).2.2 last (by simp) r hr)
  · intro r hr
    rw [← not_le, hnext, not_lt]
    rcases mem_append.mp hr with hr | hr
    · exact ((pairwise_append.mp (pairwise_append.mp h).1).2.2 r hr last (by simp)).le
    · rw [mem_singleton.mp hr]

/-- **What follows a page.** -/
theorem since_after_page (h : Ascending records)
    (hlast : ((since s records).take n).getLast? = some last)
    (hnext : ∀ k, next ≤ k ↔ last.1 < k) : since next records = (since s records).drop n := by
  have hmem : last ∈ since s records :=
    mem_of_mem_take (mem_of_getLast? hlast)
  have hsplit : records = below s records ++ since s records := (below_append_since h s).symm
  have hback : since next (since s records) = (since s records).drop n := by
    have hasc := h.since s
    rw [← take_append_drop n (since s records)] at hasc
    have := since_behind hasc hlast hnext
    rw [take_append_drop] at this
    exact this
  rw [hsplit, since_append, ← hsplit, hback, since_eq_nil, nil_append]
  intro r hr
  rw [← not_le, hnext, not_lt]
  exact ((mem_below.mp hr).2.trans_le (mem_since.mp hmem).2).le

theorem below_behind (h : (xs ++ ys).Pairwise fun x y => y.1 < x.1)
    (hlast : xs.getLast? = some last) : below last.1 (xs ++ ys) = ys := by
  obtain ⟨front, rfl⟩ := getLast?_eq_some_iff.mp hlast
  rw [below_append, below_eq_nil, below_eq_self, nil_append]
  · intro r hr
    exact (pairwise_append.mp h).2.2 last (by simp) r hr
  · intro r hr
    rcases mem_append.mp hr with hr | hr
    · exact ((pairwise_append.mp (pairwise_append.mp h).1).2.2 r hr last (by simp)).le
    · rw [mem_singleton.mp hr]

/-- **What precedes a page read downwards.** -/
theorem below_after_page (h : Ascending records)
    (hlast : ((below b records).reverse.take n).getLast? = some last) :
    (below last.1 records).reverse = (below b records).reverse.drop n := by
  have hmem : last ∈ below b records :=
    mem_reverse.mp (mem_of_mem_take (mem_of_getLast? hlast))
  -- nothing from `b` on is below the last key of the page
  have hbelow : below last.1 records = below last.1 (below b records) := by
    conv_lhs => rw [← below_append_since h b]
    have hnone : below last.1 (since b records) = [] :=
      below_eq_nil fun r hr => ((mem_below.mp hmem).2.trans_le (mem_since.mp hr).2).le
    rw [below_append, hnone, append_nil]
  have hdown : ((below b records).reverse.take n ++ (below b records).reverse.drop n).Pairwise
      fun x y => y.1 < x.1 := by
    rw [take_append_drop]
    exact pairwise_reverse.mpr (h.below b)
  have hback := below_behind hdown hlast
  rw [take_append_drop] at hback
  rw [hbelow, ← hback]
  exact (filter_reverse ..).symm

/-- The records below `b`, or all of them if there is no bound. -/
def belowOpt : Option K → List (K × V) → List (K × V)
  | none, records => records
  | some b, records => below b records

/-- The same page from a bound or from the end. -/
theorem belowOpt_after_page {b : Option K} (h : Ascending records)
    (hlast : ((belowOpt b records).reverse.take n).getLast? = some last) :
    (below last.1 records).reverse = (belowOpt b records).reverse.drop n := by
  cases b with
  | some b => exact below_after_page h hlast
  | none =>
    have hdown : (records.reverse.take n ++ records.reverse.drop n).Pairwise
        fun x y => y.1 < x.1 := by
      rw [take_append_drop]
      exact pairwise_reverse.mpr h
    have hback := below_behind hdown hlast
    rw [take_append_drop] at hback
    exact (filter_reverse ..).symm.trans hback

end Page

/-! ## Ranges -/

section Range

variable {P : K → Bool} {lo s : K} {records xs : List (K × V)}

/-- The records whose key is in the range. -/
def within (P : K → Bool) (records : List (K × V)) : List (K × V) :=
  records.filter fun r => P r.1

omit [LinearOrder K] in
theorem mem_within {r : K × V} : r ∈ within P records ↔ r ∈ records ∧ P r.1 = true := by
  simp [within]

theorem Ascending.within (h : Ascending records) (P : K → Bool) : Ascending (within P records) :=
  List.Pairwise.filter _ h

theorem within_since (P : K → Bool) (s : K) (records : List (K × V)) :
    within P (since s records) = since s (within P records) := by
  unfold within since
  rw [filter_filter, filter_filter]
  simp only [Bool.and_comm]

/-- From `s` on. -/
def atLeast (s k : K) : Bool := decide (s ≤ k)

/-- From `s` on and below `b`. -/
def inRange (s b k : K) : Bool := decide (k < b) && decide (s ≤ k)

@[simp] theorem atLeast_iff {s k : K} : atLeast s k = true ↔ s ≤ k := decide_eq_true_iff

@[simp] theorem atLeast_eq_false {s k : K} : atLeast s k = false ↔ k < s := by
  rw [Bool.eq_false_iff, Ne, atLeast_iff, not_le]

@[simp] theorem inRange_iff {s b k : K} : inRange s b k = true ↔ k < b ∧ s ≤ k := by
  unfold inRange
  rw [Bool.and_eq_true, decide_eq_true_iff, decide_eq_true_iff]

theorem since_eq_within (s : K) (records : List (K × V)) :
    since s records = within (atLeast s) records := rfl

theorem below_since (s b : K) (records : List (K × V)) :
    below b (since s records) = within (inRange s b) records := filter_filter

/-- From `lo` on, a key below one of the range is in the range. -/
def DownFrom (P : K → Bool) (lo : K) : Prop := ∀ j k, lo ≤ j → j < k → P k = true → P j = true

/-- In ascending order the range comes first. -/
theorem takeWhile_eq_within (lo : K) (hP : DownFrom P lo) (h : Ascending xs)
    (hlo : ∀ r ∈ xs, lo ≤ r.1) :
    xs.takeWhile (fun r => P r.1) = within P xs := by
  induction xs with
  | nil => rfl
  | cons r xs ih =>
    obtain ⟨hr, hxs⟩ := pairwise_cons.mp h
    have ih' := ih hxs fun x hx => hlo x (mem_cons_of_mem r hx)
    cases hPr : P r.1 with
    | true =>
      have hw : within P (r :: xs) = r :: within P xs := by simp [within, hPr]
      rw [takeWhile_cons_of_pos (by simpa using hPr), ih', hw]
    | false =>
      -- past the first key outside, every key is outside
      have hnil : within P (r :: xs) = [] := by
        refine filter_eq_nil_iff.mpr fun x hx hPx => ?_
        rcases mem_cons.mp hx with rfl | hx
        · rw [hPr] at hPx
          cases hPx
        · have := hP r.1 x.1 (hlo r mem_cons_self) (hr x hx) hPx
          rw [hPr] at this
          cases this
      rw [takeWhile_cons_of_neg (by simp [hPr]), hnil]

theorem takeWhile_take {α : Type} (p : α → Bool) (n : Nat) (l : List α) :
    (l.take n).takeWhile p = (l.takeWhile p).take n := by
  induction l generalizing n with
  | nil => simp
  | cons a l ih =>
    cases n with
    | zero => simp
    | succ n =>
      cases hp : p a with
      | true => simp [hp, ih]
      | false => simp [hp]

/-- **A page of a range.**  A page cut at the first key outside the range is a
    page of the records in the range. -/
theorem takeWhile_page (hP : DownFrom P lo) (h : Ascending records) (hs : lo ≤ s) (n : Nat) :
    ((since s records).take n).takeWhile (fun r => P r.1) = (since s (within P records)).take n := by
  rw [takeWhile_take, takeWhile_eq_within lo hP (h.since s), within_since]
  intro r hr
  exact hs.trans (mem_since.mp hr).2

end Range

/-! ## Streaming -/

section Stream

variable {ε α : Type}

/-- Pages of `n` records read from `cursor` on until one is short, each record
    handed to `visit`. -/
def streamPages (page : K → List (K × V)) (succ : K → K) (n : Nat) (stuck : ε)
    (visit : α → K × V → Except ε α) : Nat → K → α → Except ε α
  | 0, _, _ => .error stuck
  | turns + 1, cursor, acc =>
    match (page cursor).getLast? with
    | none => pure acc
    | some last => do
      let acc ← (page cursor).foldlM visit acc
      if (page cursor).length < n then pure acc
      else streamPages page succ n stuck visit turns (succ last.1) acc

/-- **Streaming visits every record once, in order.** -/
theorem streamPages_eq {page : K → List (K × V)} {succ : K → K} {n : Nat} {stuck : ε}
    {visit : α → K × V → Except ε α} {records : List (K × V)} {lo : K} (h : Ascending records)
    (hsucc : ∀ k j, succ k ≤ j ↔ k < j) (hn : 0 < n)
    (hpage : ∀ c, lo ≤ c → page c = (since c records).take n) {turns : Nat} {cursor : K} {acc : α}
    (hlo : lo ≤ cursor) (hturns : (since cursor records).length < turns) :
    streamPages page succ n stuck visit turns cursor acc
      = (since cursor records).foldlM visit acc := by
  induction turns generalizing cursor acc with
  | zero => omega
  | succ turns ih =>
    unfold streamPages
    rw [hpage cursor hlo]
    cases hlast : ((since cursor records).take n).getLast? with
    | none =>
      have hnil : since cursor records = [] := by
        have := getLast?_eq_none_iff.mp hlast
        rcases take_eq_nil_iff.mp this with h0 | h0
        · omega
        · exact h0
      rw [hnil]
      rfl
    | some last =>
      have hmem : last ∈ since cursor records :=
        mem_of_mem_take (mem_of_getLast? hlast)
      have hrest := since_after_page h hlast (hsucc last.1)
      have hcursor : lo ≤ succ last.1 := by
        have hlt : last.1 < succ last.1 := (hsucc last.1 _).mp le_rfl
        exact hlo.trans ((mem_since.mp hmem).2.trans hlt.le)
      have hpos : 0 < (since cursor records).length := length_pos_of_mem hmem
      -- the records of the page, then what is left
      conv_rhs => rw [← take_append_drop n (since cursor records), foldlM_append]
      refine congrArg (Bind.bind _) (funext fun a => ?_)
      by_cases hshort : ((since cursor records).take n).length < n
      · have hdrop : (since cursor records).drop n = [] := by
          rw [length_take] at hshort
          exact drop_of_length_le (by omega)
        rw [if_pos hshort, hdrop]
        rfl
      · rw [if_neg hshort, ih hcursor, hrest]
        rw [hrest, length_drop]
        omega

end Stream

/-! ## Sweeps -/

section Sweep

variable {σ α β : Type} {xs ys : List α}

/-- Elements visited one by one; the flag of a visit ends the sweep. -/
def sweep (look : σ → α → σ × Bool) : List α → σ → σ × Bool
  | [], out => (out, false)
  | x :: xs, out =>
    if (look out x).2 then ((look out x).1, true) else sweep look xs (look out x).1

theorem sweep_append (look : σ → α → σ × Bool) (xs ys : List α) (out : σ) :
    sweep look (xs ++ ys) out = if (sweep look xs out).2 then ((sweep look xs out).1, true)
      else sweep look ys (sweep look xs out).1 := by
  induction xs generalizing out with
  | nil => rfl
  | cons x xs ih =>
    show (if (look out x).2 then _ else sweep look (xs ++ ys) _) = _
    by_cases hx : (look out x).2 = true
    · simp [sweep, hx]
    · rw [if_neg hx, ih]
      simp [sweep, hx]

theorem sweep_fixed {look : σ → α → σ × Bool} {out : σ} (h : ∀ x, (look out x).1 = out) :
    (sweep look xs out).1 = out := by
  induction xs with
  | nil => rfl
  | cons x xs ih =>
    unfold sweep
    rw [h x]
    split
    · rfl
    · exact ih

variable {halt keep good : α → Bool} {f : α → β} {look : List β → α → List β × Bool}
  {out : List β} {limit : Nat}

/-- Once a sweep is past an element that ends it, nothing wanted follows. -/
def HaltsPast (halt good : α → Bool) (xs : List α) : Prop :=
  xs.Pairwise fun a b => halt a = true → good b = false

theorem HaltsPast.filter_eq_nil {x : α} (h : HaltsPast halt good (x :: xs)) (hx : halt x = true) :
    xs.filter good = [] := by
  refine filter_eq_nil_iff.mpr fun y hy hgood => ?_
  rw [(pairwise_cons.mp h).1 y hy hx] at hgood
  cases hgood

/-- **A sweep takes what is wanted**, though it stops early. -/
theorem sweep_filter (halt keep : α → Bool) (hlook : ∀ out x, look out x = if halt x then (out, true)
      else if keep x then (out ++ [f x], false) else (out, false))
    (hgood : ∀ x, good x = (keep x && !halt x)) (hxs : HaltsPast halt good xs) :
    (sweep look xs out).1 = out ++ (xs.filter good).map f := by
  induction xs generalizing out with
  | nil => exact (append_nil out).symm
  | cons x xs ih =>
    have ih' := fun out => @ih out (pairwise_cons.mp hxs).2
    unfold sweep
    rw [hlook, filter_cons, hgood]
    cases hhalt : halt x with
    | true =>
      rw [hxs.filter_eq_nil hhalt]
      simp
    | false =>
      cases hkeep : keep x with
      | true => simp [ih']
      | false => simp [ih']

/-- A sweep that ends before the element that is one too many. -/
theorem sweep_take (keep : α → Bool) (hlook : ∀ out x, look out x = if keep x then
      (if out.length = limit then (out, true) else (out ++ [f x], false)) else (out, false))
    (hout : out.length ≤ limit) :
    (sweep look xs out).1 = out ++ ((xs.filter keep).take (limit - out.length)).map f := by
  induction xs generalizing out with
  | nil => simp [sweep]
  | cons x xs ih =>
    unfold sweep
    rw [hlook, filter_cons]
    cases hkeep : keep x with
    | false => simp [ih hout]
    | true =>
      by_cases hfull : out.length = limit
      · simp [hfull]
      · have hlen : (out ++ [f x]).length ≤ limit := by
          rw [length_append]
          simp only [length_singleton]
          omega
        obtain ⟨room, hroom⟩ : ∃ room, limit - out.length = room + 1 :=
          ⟨limit - out.length - 1, by omega⟩
        have hrest : limit - (out.length + 1) = room := by omega
        rw [if_pos rfl, if_neg hfull, if_pos rfl, hroom]
        simp [ih hlen, hrest]

/-- A sweep that ends with the element that fills its page. -/
theorem sweep_page (halt keep good : α → Bool) (hlook : ∀ out x, look out x = if halt x then (out, true)
      else if keep x then (out ++ [f x], decide ((out ++ [f x]).length = limit)) else (out, false))
    (hgood : ∀ x, good x = (keep x && !halt x)) (hxs : HaltsPast halt good xs)
    (hout : out.length < limit) :
    (sweep look xs out).1 = out ++ ((xs.filter good).take (limit - out.length)).map f := by
  induction xs generalizing out with
  | nil => simp [sweep]
  | cons x xs ih =>
    have ih' := fun out => @ih out (pairwise_cons.mp hxs).2
    obtain ⟨room, hroom⟩ : ∃ room, limit - out.length = room + 1 :=
      ⟨limit - out.length - 1, by omega⟩
    unfold sweep
    rw [hlook, filter_cons, hgood]
    cases hhalt : halt x with
    | true =>
      rw [hxs.filter_eq_nil hhalt]
      simp
    | false =>
      cases hkeep : keep x with
      | false => simp [ih' out hout]
      | true =>
        have hlen : (out ++ [f x]).length = out.length + 1 := by simp
        rw [hroom, hlen]
        by_cases hfull : out.length + 1 = limit
        · have hlast : room = 0 := by omega
          simp [hfull, hlast]
        · have hrest : limit - (out.length + 1) = room := by omega
          simp [hfull, ih' (out ++ [f x]) (by omega), hrest]

end Sweep

/-! ## Setting and dropping a record -/

section Store

variable {k : K} {v : V} {records : List (K × V)} {r : K × V}

/-- The records with `v` under `k`. -/
def setRecord (k : K) (v : V) (records : List (K × V)) : List (K × V) :=
  below k records ++ (k, v) :: records.filter fun r => decide (k < r.1)

/-- The records without the one under `k`. -/
def dropRecord (k : K) (records : List (K × V)) : List (K × V) :=
  records.filter fun r => decide (r.1 ≠ k)

theorem mem_setRecord (h : r ∈ setRecord k v records) : r = (k, v) ∨ r ∈ records := by
  rcases mem_append.mp h with h | h
  · exact Or.inr (mem_below.mp h).1
  · rcases mem_cons.mp h with h | h
    · exact Or.inl h
    · exact Or.inr (mem_filter.mp h).1

theorem mem_of_mem_dropRecord (h : r ∈ dropRecord k records) : r ∈ records :=
  (mem_filter.mp h).1

theorem Ascending.setRecord (h : Ascending records) (k : K) (v : V) :
    Ascending (setRecord k v records) := by
  have hgt : ∀ r ∈ records.filter (fun r => decide (k < r.1)), k < r.1 := by
    intro r hr
    simpa using (mem_filter.mp hr).2
  refine pairwise_append.mpr ⟨h.below k, pairwise_cons.mpr ⟨hgt, ?_⟩, ?_⟩
  · exact List.Pairwise.filter _ h
  · intro x hx y hy
    have hxk := (mem_below.mp hx).2
    rcases mem_cons.mp hy with rfl | hy
    · exact hxk
    · exact hxk.trans (hgt y hy)

theorem setRecord_around {value : Option V} {left right : List (K × V)} (h : Around k left right) :
    setRecord k v (around left k value right) = around left k (some v) right := by
  have hat : ∀ r ∈ (value.map fun v => (k, v)).toList, r.1 = k := by
    cases value <;> simp
  have hle : ∀ r ∈ left ++ (value.map fun v => (k, v)).toList, r.1 ≤ k := fun r hr =>
    (mem_append.mp hr).elim (fun hr => le_of_lt (h.lt r hr)) fun hr => le_of_eq (hat r hr)
  unfold setRecord around
  rw [below_append, below_append, below_eq_self h.lt,
    below_eq_nil fun r hr => (hat r hr).ge, below_eq_nil fun r hr => le_of_lt (h.gt r hr),
    filter_append, filter_eq_nil_iff.mpr fun r hr => by simpa using hle r hr,
    filter_eq_self.mpr fun r hr => decide_eq_true (h.gt r hr)]
  simp

/-- Setting a record replaces its share of a sum. -/
theorem sum_setRecord (h : Ascending records) (f : K × V → Nat) :
    ((setRecord k v records).map f).sum + (find k records).elim 0 (fun old => f (k, old))
      = (records.map f).sum + f (k, v) := by
  obtain ⟨left, value, right, ha, rfl⟩ := exists_around k h
  rw [setRecord_around ha, find_around ha]
  unfold around
  cases value <;> simp <;> omega

theorem Ascending.dropRecord (h : Ascending records) (k : K) : Ascending (dropRecord k records) :=
  List.Pairwise.filter _ h

end Store

/-! ## Byte strings -/

section Bytes

variable {α : Type} [LinearOrder α]

theorem lt_append_bot_iff {bot : α} (hbot : ∀ a, bot ≤ a) (k j : List α) :
    j < k ++ [bot] ↔ ¬k < j := by
  induction k generalizing j with
  | nil =>
    cases j with
    | nil => simp
    | cons b j =>
      have hnot : ¬(b < bot) := not_lt.mpr (hbot b)
      simp [cons_lt_cons_iff, hnot]
  | cons a k ih =>
    cases j with
    | nil => simp
    | cons b j =>
      simp only [cons_append, cons_lt_cons_iff, ih j]
      rcases lt_trichotomy a b with hlt | rfl | hgt
      · simp [hlt, hlt.not_gt, hlt.ne']
      · simp
      · simp [hgt, hgt.not_gt, hgt.ne']

/-- **The key behind `k`.**  With a least element to append there is no key
    strictly between `k` and `k` followed by it. -/
theorem append_bot_le_iff {bot : α} (hbot : ∀ a, bot ≤ a) (k j : List α) :
    k ++ [bot] ≤ j ↔ k < j := by
  rw [← not_lt, lt_append_bot_iff hbot, not_not]

theorem prefix_le {p k : List α} (hp : p <+: k) : p ≤ k := by
  obtain ⟨rest, rfl⟩ := hp
  rw [← not_lt]
  induction p with
  | nil => exact not_lt_nil _
  | cons a p ih =>
    rw [cons_append, cons_lt_cons_iff]
    rintro (hlt | ⟨-, hlt⟩)
    · exact lt_irrefl a hlt
    · exact ih hlt

/-- **The keys with one prefix are a range.** -/
theorem prefix_of_between {p j k : List α} (hp : p <+: k) (hj : p ≤ j) (hjk : j < k) : p <+: j := by
  induction p generalizing j k with
  | nil => exact nil_prefix
  | cons a p ih =>
    obtain ⟨rest, rfl⟩ := hp
    have hnot : ¬j < a :: p := not_lt.mpr hj
    cases j with
    | nil => exact absurd (nil_lt_cons a p) hnot
    | cons b j =>
      rw [cons_append, cons_lt_cons_iff] at hjk
      rw [cons_lt_cons_iff] at hnot
      rcases hjk with hlt | ⟨rfl, hlt⟩
      · exact absurd (Or.inl hlt) hnot
      · have hle : p ≤ j := not_lt.mp fun h => hnot (Or.inr ⟨rfl, h⟩)
        exact cons_prefix_cons.mpr ⟨rfl, ih ⟨rest, rfl⟩ hle hlt⟩

end Bytes

end Pagedb.Lib
