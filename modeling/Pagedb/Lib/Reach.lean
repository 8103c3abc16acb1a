/-
  Pagedb.Lib.Reach — what a graph of links reaches.

  A graph is a function from a node to the nodes it links to.  A walk of such a
  graph keeps the nodes it has seen; what a finished walk has found is said by
  `Explored`, with one rule per move of a walk:

    * `Explored.nil` — nothing is left to visit;
    * `Explored.skip` — a node already seen;
    * `Explored.enter` — a new node, whose links are visited behind it;
    * `Explored.trans` — one walk after another.

  `Explored.mem_iff` reads the result of a walk that started with nothing seen.
  Whether sets of nodes overlap, or a node is linked from two, is seen by counting
  (`sum_ncard_eq_iff`, `ncard_linksFrom_iff`).

  Where every node has one link, two cursors of different speed meet on a cycle
  before the slow one comes back to where it has been (`meet_of_repeat`).
-/
import Mathlib

namespace Pagedb.Lib

open List hiding Disjoint

variable {α : Type} {links links' : α → List α}

/-! ## Reachability -/

/-- `b` is reached from `a` along zero or more links. -/
def Reach (links : α → List α) : α → α → Prop :=
  Relation.ReflTransGen fun a b => b ∈ links a

theorem Reach.refl (a : α) : Reach links a a := Relation.ReflTransGen.refl

variable {a b c x : α} {f : α → α}

theorem Reach.head (h : b ∈ links a) (hbc : Reach links b c) : Reach links a c :=
  Relation.ReflTransGen.head h hbc

theorem Reach.tail (hab : Reach links a b) (h : c ∈ links b) : Reach links a c :=
  Relation.ReflTransGen.tail hab h

theorem Reach.trans (hab : Reach links a b) (hbc : Reach links b c) : Reach links a c :=
  Relation.ReflTransGen.trans hab hbc

theorem Reach.mem_of_closed {S : α → Prop} (hab : Reach links a b) (ha : S a)
    (hclosed : ∀ x, S x → ∀ y ∈ links x, S y) : S b := by
  induction hab with
  | refl => exact ha
  | tail _ hlink ih => exact hclosed _ ih _ hlink

theorem Reach.congr (hsame : ∀ x, Reach links a x → links' x = links x) (hab : Reach links a b) :
    Reach links' a b := by
  induction hab with
  | refl => exact Reach.refl a
  | tail hax hlink ih =>
    refine ih.tail ?_
    rw [hsame _ hax]
    exact hlink

theorem reach_congr_iff (hsame : ∀ x, Reach links a x → links' x = links x) :
    Reach links' a b ↔ Reach links a b := by
  constructor
  · intro hab
    induction hab with
    | refl => exact Reach.refl a
    | tail _ hlink ih =>
      refine ih.tail ?_
      rw [← hsame _ ih]
      exact hlink
  · exact Reach.congr hsame

/-! ## Counting

Counting finds what is named twice without comparing any two of the names. -/

/-- The links out of the nodes of `S`. -/
def linksFrom (links : α → List α) (S : Set α) : Set (α × α) :=
  { e | e.1 ∈ S ∧ e.2 ∈ links e.1 }

/-- As many links as nodes linked to: no node is linked from two. -/
theorem ncard_linksFrom_iff {S : Set α} (hfin : (linksFrom links S).Finite) :
    (linksFrom links S).ncard = (Prod.snd '' linksFrom links S).ncard
      ↔ ∀ x ∈ S, ∀ y ∈ S, ∀ z, z ∈ links x → z ∈ links y → x = y := by
  rw [eq_comm, Set.ncard_image_iff hfin]
  constructor
  · intro hinj x hx y hy z hzx hzy
    have hx' : (x, z) ∈ linksFrom links S := ⟨hx, hzx⟩
    have hy' : (y, z) ∈ linksFrom links S := ⟨hy, hzy⟩
    exact congrArg Prod.fst (hinj hx' hy' rfl)
  · rintro hone ⟨x, z⟩ ⟨hx, hzx⟩ ⟨y, _⟩ ⟨hy, hzy⟩ rfl
    rw [hone x hx y hy z hzx hzy]

/-- The members of all sets of a list. -/
def unionOf (sets : List (Set α)) : Set α := { a | ∃ s ∈ sets, a ∈ s }

theorem unionOf_cons (s : Set α) (sets : List (Set α)) : unionOf (s :: sets) = s ∪ unionOf sets := by
  ext a
  simp [unionOf]

theorem finite_unionOf {sets : List (Set α)} (hfin : ∀ s ∈ sets, s.Finite) :
    (unionOf sets).Finite := by
  induction sets with
  | nil => simp [unionOf]
  | cons s sets ih =>
    rw [unionOf_cons]
    exact (hfin s mem_cons_self).union (ih fun t ht => hfin t (mem_cons_of_mem s ht))

theorem ncard_unionOf_le (sets : List (Set α)) :
    (unionOf sets).ncard ≤ (sets.map Set.ncard).sum := by
  induction sets with
  | nil => simp [unionOf]
  | cons s sets ih =>
    rw [unionOf_cons, map_cons, sum_cons]
    exact (Set.ncard_union_le _ _).trans (Nat.add_le_add_left ih _)

/-- The sizes add up to the size of the union: no two of the sets meet. -/
theorem sum_ncard_eq_iff {sets : List (Set α)} (hfin : ∀ s ∈ sets, s.Finite) :
    (sets.map Set.ncard).sum = (unionOf sets).ncard ↔ sets.Pairwise Disjoint := by
  induction sets with
  | nil => simp [unionOf]
  | cons s sets ih =>
    have hs := hfin s mem_cons_self
    have htail := fun t ht => hfin t (mem_cons_of_mem s ht)
    have hmeet : (∀ t ∈ sets, Disjoint s t) ↔ (s ∩ unionOf sets).ncard = 0 := by
      rw [Set.ncard_eq_zero (hs.inter_of_left _), ← Set.disjoint_iff_inter_eq_empty,
        Set.disjoint_left]
      simp only [Set.disjoint_left]
      exact ⟨fun h a ha ⟨t, ht, hat⟩ => h t ht ha hat, fun h t ht a ha hat => h ha ⟨t, ht, hat⟩⟩
    have hcount := Set.ncard_union_add_ncard_inter s (unionOf sets) hs (finite_unionOf htail)
    have hle := ncard_unionOf_le sets
    rw [pairwise_cons, hmeet, ← ih htail, unionOf_cons, map_cons, sum_cons]
    omega

/-! ## Finished walks -/

/-- A walk that had `seen` behind it and `start` to visit has found `found`.
    Every node it added satisfies `P`. -/
structure Explored (links : α → List α) (P : α → Prop) (start seen found : List α) : Prop where
  grows : seen ⊆ found
  covers : start ⊆ found
  closed : ∀ x ∈ found, x ∉ seen → links x ⊆ found
  sound : ∀ x ∈ found, x ∉ seen → P x ∧ ∃ r ∈ start, Reach links r x

namespace Explored

variable {P : α → Prop} {start start' seen mid found : List α} {x : α}

theorem nil : Explored links P [] seen seen where
  grows := fun _ h => h
  covers := nofun
  closed := fun _ h hn => absurd h hn
  sound := fun _ h hn => absurd h hn

theorem skip (hx : x ∈ seen) : Explored links P [x] seen seen where
  grows := fun _ h => h
  covers := by
    intro y hy
    rw [mem_singleton.mp hy]
    exact hx
  closed := fun _ h hn => absurd h hn
  sound := fun _ h hn => absurd h hn

theorem trans (h : Explored links P start seen mid) (h' : Explored links P start' mid found) :
    Explored links P (start ++ start') seen found where
  grows := fun y hy => h'.grows (h.grows hy)
  covers := by
    intro y hy
    rcases mem_append.mp hy with hy | hy
    · exact h'.grows (h.covers hy)
    · exact h'.covers hy
  closed := by
    intro y hy hn
    by_cases hmid : y ∈ mid
    · exact fun z hz => h'.grows (h.closed y hmid hn hz)
    · exact h'.closed y hy hmid
  sound := by
    intro y hy hn
    by_cases hmid : y ∈ mid
    · obtain ⟨hPy, r, hr, hry⟩ := h.sound y hmid hn
      exact ⟨hPy, r, mem_append_left _ hr, hry⟩
    · obtain ⟨hPy, r, hr, hry⟩ := h'.sound y hy hmid
      exact ⟨hPy, r, mem_append_right _ hr, hry⟩

/-- A new node whose links wait in front of what waited behind it. -/
theorem enter_append (h : Explored links P (links x ++ start) (x :: seen) found) (hP : P x) :
    Explored links P (x :: start) seen found where
  grows := fun y hy => h.grows (mem_cons_of_mem x hy)
  covers := by
    intro y hy
    rcases mem_cons.mp hy with rfl | hy
    · exact h.grows mem_cons_self
    · exact h.covers (mem_append_right _ hy)
  closed := by
    intro y hy hn
    by_cases hyx : y = x
    · rw [hyx]
      exact fun z hz => h.covers (mem_append_left _ hz)
    · exact h.closed y hy fun hmem => (mem_cons.mp hmem).elim hyx hn
  sound := by
    intro y hy hn
    by_cases hyx : y = x
    · rw [hyx]
      exact ⟨hP, x, mem_cons_self, Reach.refl x⟩
    · obtain ⟨hPy, r, hr, hry⟩ :=
        h.sound y hy fun hmem => (mem_cons.mp hmem).elim hyx hn
      rcases mem_append.mp hr with hr | hr
      · exact ⟨hPy, x, mem_cons_self, hry.head hr⟩
      · exact ⟨hPy, r, mem_cons_of_mem x hr, hry⟩

theorem enter (hP : P x) (h : Explored links P (links x) (x :: seen) found) :
    Explored links P [x] seen found := by
  refine enter_append ?_ hP
  rw [append_nil]
  exact h

theorem congr_start (h : Explored links P start seen found) (hsame : ∀ y, y ∈ start' ↔ y ∈ start) :
    Explored links P start' seen found where
  grows := h.grows
  covers := fun y hy => h.covers ((hsame y).mp hy)
  closed := h.closed
  sound := by
    intro y hy hn
    obtain ⟨hPy, r, hr, hry⟩ := h.sound y hy hn
    exact ⟨hPy, r, (hsame r).mpr hr, hry⟩

theorem mem_iff (h : Explored links P start [] found) :
    x ∈ found ↔ ∃ r ∈ start, Reach links r x := by
  constructor
  · intro hx
    exact (h.sound x hx not_mem_nil).2
  · rintro ⟨r, hr, hrx⟩
    exact hrx.mem_of_closed (S := fun y => y ∈ found) (h.covers hr)
      fun y hy z hz => h.closed y hy not_mem_nil hz

end Explored

/-! ## One link a node -/

/-- A walk that has passed more nodes than there are has passed one twice. -/
theorem iterate_rounds {i period : Nat} (h : f^[i] x = f^[i + period] x) {k : Nat} (hk : i ≤ k)
    (rounds : Nat) : f^[k + period * rounds] x = f^[k] x := by
  have hone : ∀ k, i ≤ k → f^[k + period] x = f^[k] x := by
    intro k hk
    have hsplit : k = (k - i) + i := by omega
    rw [hsplit, Nat.add_assoc, Function.iterate_add_apply, Function.iterate_add_apply f (k - i) i, h]
  induction rounds with
  | zero => rfl
  | succ rounds ih =>
    rw [Nat.mul_succ, ← Nat.add_assoc, hone _ (by omega), ih]

/-- **The two cursors meet** before the slow one is where it has been. -/
theorem meet_of_repeat {i j : Nat} (hlt : i < j) (heq : f^[i] x = f^[j] x) :
    ∃ k, 0 < k ∧ k ≤ j ∧ f^[2 * k] x = f^[k] x := by
  -- the first multiple of the period after `i` is not past `j`
  let period := j - i
  have hperiod : 0 < period := Nat.sub_pos_of_lt hlt
  have hfirst : i < period * (i / period + 1) := by
    have := Nat.div_add_mod i period
    have := Nat.mod_lt i hperiod
    rw [Nat.mul_succ]
    omega
  have hlast : period * (i / period + 1) ≤ j := by
    have := Nat.mul_div_le i period
    rw [Nat.mul_succ]
    omega
  refine ⟨period * (i / period + 1), by omega, hlast, ?_⟩
  rw [Nat.two_mul]
  refine iterate_rounds (i := i) ?_ (Nat.le_of_lt hfirst) _
  rw [heq]
  congr 2
  omega

end Pagedb.Lib
