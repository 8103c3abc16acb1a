/-
  Pagedb.Lib.SearchTree — search trees laid out in addressed cells.

  A node is a leaf of records or a branch over separators, every node has an
  address, and all leaves lie at the same depth.  A tree reads out in order as
  a list of items, its records with its separators between them, and being a
  search tree is one statement about that list (`Item.lt`, pairwise).

    * `Node.items`   — the in-order read-out, which no change of shape touches;
    * `Node.cells`   — what a store must hold at which address;
    * `Node.leafPaths` — for each leaf, the branch addresses above it;
    * `Node.rename`  — the same tree at other addresses.
-/
import Mathlib

namespace Pagedb.Lib

open List

variable {ι K V : Type}

/-! ## §1. In-order items -/

/-- One position of the in-order read-out: a separator or a record. -/
inductive Item (K V : Type) where
  | sep (k : K)
  | entry (k : K) (v : V)

/-- The records among the items. -/
def Item.record? : Item K V → Option (K × V)
  | .sep _ => none
  | .entry k v => some (k, v)

/-- The records of an in-order read-out. -/
def recordsOf (items : List (Item K V)) : List (K × V) := items.filterMap Item.record?

@[simp] theorem recordsOf_append (a b : List (Item K V)) :
    recordsOf (a ++ b) = recordsOf a ++ recordsOf b :=
  filterMap_append

theorem mem_recordsOf {items : List (Item K V)} {r : K × V} :
    r ∈ recordsOf items ↔ Item.entry r.1 r.2 ∈ items := by
  unfold recordsOf
  rw [mem_filterMap]
  constructor
  · rintro ⟨x, hx, heq⟩
    cases x with
    | sep k => cases heq
    | entry k v =>
      cases heq
      exact hx
  · exact fun h => ⟨_, h, rfl⟩

@[simp] theorem recordsOf_sep (k : K) (a : List (Item K V)) :
    recordsOf (.sep k :: a) = recordsOf a := rfl

@[simp] theorem recordsOf_records (recs : List (K × V)) :
    recordsOf (recs.map fun r => Item.entry r.1 r.2) = recs := by
  induction recs with
  | nil => rfl
  | cons r recs ih =>
    show r :: recordsOf (recs.map fun r => Item.entry r.1 r.2) = r :: recs
    rw [ih]

section Order

variable [LinearOrder K]

/-- Strictly earlier in the in-order read-out.  A separator equal to a key
    stands to the left of that key's record. -/
def Item.lt : Item K V → Item K V → Prop
  | .sep a, .sep b => a < b
  | .sep a, .entry b _ => a ≤ b
  | .entry a _, .sep b => a < b
  | .entry a _, .entry b _ => a < b

/-- Left of where a record of key `k` belongs. -/
def Item.Before (k : K) : Item K V → Prop
  | .sep a => a ≤ k
  | .entry a _ => a < k

/-- Right of where a record of key `k` belongs. -/
def Item.After (k : K) : Item K V → Prop
  | .sep a => k < a
  | .entry a _ => k < a

/-- A read-out in strictly increasing order. -/
def InOrder (items : List (Item K V)) : Prop := items.Pairwise Item.lt

instance : DecidableRel (Item.lt (K := K) (V := V)) := fun x y =>
  match x, y with
  | .sep a, .sep b => inferInstanceAs (Decidable (a < b))
  | .sep a, .entry b _ => inferInstanceAs (Decidable (a ≤ b))
  | .entry a _, .sep b => inferInstanceAs (Decidable (a < b))
  | .entry a _, .entry b _ => inferInstanceAs (Decidable (a < b))

instance (items : List (Item K V)) : Decidable (InOrder items) :=
  inferInstanceAs (Decidable (items.Pairwise Item.lt))

variable {x : Item K V} {k : K}

theorem Item.Before.of_lt_sep {a : K} (h : x.lt (.sep a)) (hk : a ≤ k) : x.Before k := by
  cases x with
  | sep b => exact le_of_lt (lt_of_lt_of_le h hk)
  | entry b v => exact lt_of_lt_of_le h hk

theorem Item.After.of_sep_lt {a : K} (h : (Item.sep a).lt x) (hk : k < a) : x.After k := by
  cases x with
  | sep b => exact lt_trans hk h
  | entry b v => exact lt_of_lt_of_le hk h

theorem Item.Before.lt_entry (h : x.Before k) (v : V) : x.lt (.entry k v) := by
  cases x <;> exact h

theorem Item.After.entry_lt (h : x.After k) (v : V) : (Item.entry k v).lt x := by
  cases x <;> exact h

theorem Item.Before.lt_after {y : Item K V} (hx : x.Before k) (hy : y.After k) : x.lt y := by
  cases x with
  | sep a =>
    cases y with
    | sep b => exact lt_of_le_of_lt hx hy
    | entry b w => exact le_of_lt (lt_of_le_of_lt hx hy)
  | entry a v =>
    cases y <;> exact lt_trans hx hy

end Order

/-! ## §2. Nodes -/

/-- A leaf: an address and its records. -/
structure LeafNode (ι K V : Type) where
  id : ι
  records : List (K × V)

/-- A branch over children of type `α`: a first child, and later children each
    with the separator to its left. -/
structure BranchNode (ι K α : Type) where
  id : ι
  first : α
  rest : List (K × α)

/-- A node of height `h`: a leaf at height zero, else a branch over children of
    one height less. -/
def Node (ι K V : Type) : Nat → Type
  | 0 => LeafNode ι K V
  | h + 1 => BranchNode ι K (Node ι K V h)

/-- A leaf as a node. -/
@[match_pattern] def Node.leaf (id : ι) (records : List (K × V)) : Node ι K V 0 :=
  LeafNode.mk id records

/-- A branch as a node. -/
@[match_pattern] def Node.branch {h : Nat} (id : ι) (first : Node ι K V h)
    (rest : List (K × Node ι K V h)) : Node ι K V (h + 1) :=
  BranchNode.mk id first rest

/-- What is stored at one address. -/
inductive Cell (ι K V : Type) where
  | leaf (records : List (K × V))
  | branch (first : ι) (rest : List (K × ι))

namespace Node

theorem exists_leaf (n : Node ι K V 0) : ∃ id records, n = .leaf id records :=
  ⟨LeafNode.id n, LeafNode.records n, rfl⟩

theorem exists_branch {h : Nat} (n : Node ι K V (h + 1)) :
    ∃ id first rest, n = .branch id first rest :=
  ⟨BranchNode.id n, BranchNode.first n, BranchNode.rest n, rfl⟩

/-- The address of a node. -/
def id : {h : Nat} → Node ι K V h → ι
  | 0, .leaf id _ => id
  | _ + 1, .branch id _ _ => id

/-- The links of a branch's later children. -/
def links {h : Nat} (rest : List (K × Node ι K V h)) : List (K × ι) :=
  rest.map fun e => (e.1, e.2.id)

/-- What the store holds at the node's own address. -/
def cell : {h : Nat} → Node ι K V h → Cell ι K V
  | 0, .leaf _ records => .leaf records
  | _ + 1, .branch _ first rest => .branch first.id (links rest)

/-- Every address of the tree with its cell. -/
def cells : {h : Nat} → Node ι K V h → List (ι × Cell ι K V)
  | 0, n => [(n.id, n.cell)]
  | _ + 1, .branch id first rest =>
    (id, .branch first.id (links rest)) :: (first.cells ++ rest.flatMap fun e => e.2.cells)

/-- The addresses of the tree. -/
def ids : {h : Nat} → Node ι K V h → List ι
  | 0, n => [n.id]
  | _ + 1, .branch id first rest => id :: (first.ids ++ rest.flatMap fun e => e.2.ids)

/-- The in-order read-out. -/
def items : {h : Nat} → Node ι K V h → List (Item K V)
  | 0, .leaf _ records => records.map fun r => Item.entry r.1 r.2
  | _ + 1, .branch _ first rest =>
    first.items ++ rest.flatMap fun e => .sep e.1 :: e.2.items

/-- Each leaf's address with the branch addresses above it, outermost first. -/
def leafPaths : {h : Nat} → Node ι K V h → List (ι × List ι)
  | 0, n => [(n.id, [])]
  | _ + 1, .branch id first rest =>
    (first.leafPaths ++ rest.flatMap fun e => e.2.leafPaths).map fun l => (l.1, id :: l.2)

/-- The same tree at other addresses. -/
def rename (ρ : ι → ι) : {h : Nat} → Node ι K V h → Node ι K V h
  | 0, .leaf id records => .leaf (ρ id) records
  | _ + 1, .branch id first rest =>
    .branch (ρ id) (first.rename ρ) (rest.map fun e => (e.1, e.2.rename ρ))

end Node

/-- Renaming the links of a cell. -/
def Cell.rename (ρ : ι → ι) : Cell ι K V → Cell ι K V
  | .leaf records => .leaf records
  | .branch first rest => .branch (ρ first) (rest.map fun e => (e.1, ρ e.2))

/-- The store shows every cell of the tree at its address. -/
def Rep (shows : ι → Cell ι K V → Prop) {h : Nat} (n : Node ι K V h) : Prop :=
  ∀ e ∈ n.cells, shows e.1 e.2

namespace Node

variable {h : Nat}

theorem cells_map_fst (h : Nat) (n : Node ι K V h) : (n.cells).map Prod.fst = n.ids := by
  induction h with
  | zero => rfl
  | succ h ih =>
    obtain ⟨id, first, rest, rfl⟩ := n.exists_branch
    show id :: (first.cells ++ rest.flatMap fun e => e.2.cells).map Prod.fst
      = id :: (first.ids ++ rest.flatMap fun e => e.2.ids)
    rw [map_append, ih first, map_flatMap]
    simp only [ih]

theorem own_cell_mem (n : Node ι K V h) : (n.id, n.cell) ∈ n.cells := by
  cases h with
  | zero => exact mem_singleton_self _
  | succ h =>
    obtain ⟨id, first, rest, rfl⟩ := n.exists_branch
    exact mem_cons_self

theorem id_mem_ids (n : Node ι K V h) : n.id ∈ n.ids := by
  rw [← cells_map_fst]
  exact mem_map_of_mem (own_cell_mem n)

theorem rename_id (ρ : ι → ι) (n : Node ι K V h) : (n.rename ρ).id = ρ n.id := by
  cases h <;> rfl

theorem rename_items (ρ : ι → ι) : ∀ (h : Nat) (n : Node ι K V h),
    (n.rename ρ).items = n.items := by
  intro h
  induction h with
  | zero =>
    intro n
    obtain ⟨id, records, rfl⟩ := n.exists_leaf
    rfl
  | succ h ih =>
    intro n
    obtain ⟨id, first, rest, rfl⟩ := n.exists_branch
    simp only [rename, items, flatMap_map, ih]

theorem rename_cells (ρ : ι → ι) : ∀ (h : Nat) (n : Node ι K V h),
    (n.rename ρ).cells = (n.cells).map fun e => (ρ e.1, e.2.rename ρ) := by
  intro h
  induction h with
  | zero =>
    intro n
    obtain ⟨id, records, rfl⟩ := n.exists_leaf
    rfl
  | succ h ih =>
    intro n
    obtain ⟨id, first, rest, rfl⟩ := n.exists_branch
    have hlinks : links (rest.map fun e => (e.1, e.2.rename ρ))
        = (links rest).map fun e => (e.1, ρ e.2) := by
      unfold links
      rw [map_map, map_map]
      refine map_congr_left fun e _ => ?_
      show (e.1, (e.2.rename ρ).id) = (e.1, ρ e.2.id)
      rw [rename_id]
    simp only [rename, cells, map_cons, map_append, map_flatMap, flatMap_map, Cell.rename, hlinks,
      rename_id, ih]

theorem rename_ids (ρ : ι → ι) (h : Nat) (n : Node ι K V h) : (n.rename ρ).ids = (n.ids).map ρ := by
  rw [← cells_map_fst, rename_cells, ← cells_map_fst h n, map_map, map_map]
  rfl

/-- A leaf of the path list is an address of the tree. -/
theorem leafPaths_fst_mem : ∀ (h : Nat) (n : Node ι K V h), ∀ l ∈ n.leafPaths, l.1 ∈ n.ids := by
  intro h
  induction h with
  | zero =>
    intro n l hl
    rw [mem_singleton.mp hl]
    exact id_mem_ids n
  | succ h ih =>
    intro n l hl
    obtain ⟨id, first, rest, rfl⟩ := n.exists_branch
    obtain ⟨l', hl', rfl⟩ := mem_map.mp hl
    refine mem_cons_of_mem _ (mem_append.mpr ?_)
    rcases mem_append.mp hl' with hf | hr
    · exact Or.inl (ih first l' hf)
    · obtain ⟨e, he, hle⟩ := mem_flatMap.mp hr
      exact Or.inr (mem_flatMap.mpr ⟨e, he, ih e.2 l' hle⟩)

/-- The addresses above a leaf are addresses of the tree. -/
theorem leafPaths_snd_mem : ∀ (h : Nat) (n : Node ι K V h),
    ∀ l ∈ n.leafPaths, ∀ p ∈ l.2, p ∈ n.ids := by
  intro h
  induction h with
  | zero =>
    intro n l hl p hp
    rw [mem_singleton.mp hl] at hp
    cases hp
  | succ h ih =>
    intro n l hl p hp
    obtain ⟨id, first, rest, rfl⟩ := n.exists_branch
    obtain ⟨l', hl', rfl⟩ := mem_map.mp hl
    rcases mem_cons.mp hp with rfl | hp
    · exact mem_cons_self
    · refine mem_cons_of_mem _ (mem_append.mpr ?_)
      rcases mem_append.mp hl' with hf | hr
      · exact Or.inl (ih first l' hf p hp)
      · obtain ⟨e, he, hle⟩ := mem_flatMap.mp hr
        exact Or.inr (mem_flatMap.mpr ⟨e, he, ih e.2 l' hle p hp⟩)

/-- The children of a branch. -/
def kids {h : Nat} : Node ι K V (h + 1) → List (Node ι K V h)
  | .branch _ first rest => first :: rest.map Prod.snd

theorem ids_eq_kids (n : Node ι K V (h + 1)) : n.ids = n.id :: n.kids.flatMap ids := by
  obtain ⟨id, first, rest, rfl⟩ := n.exists_branch
  show id :: (first.ids ++ rest.flatMap fun e => e.2.ids)
    = id :: (first :: rest.map Prod.snd).flatMap ids
  rw [flatMap_cons, flatMap_map]

theorem cells_eq_kids (n : Node ι K V (h + 1)) :
    n.cells = (n.id, n.cell) :: n.kids.flatMap cells := by
  obtain ⟨id, first, rest, rfl⟩ := n.exists_branch
  show (id, Cell.branch first.id (links rest)) :: (first.cells ++ rest.flatMap fun e => e.2.cells)
    = (id, Cell.branch first.id (links rest)) :: (first :: rest.map Prod.snd).flatMap cells
  rw [flatMap_cons, flatMap_map]

theorem leafPaths_eq_kids (n : Node ι K V (h + 1)) :
    n.leafPaths = (n.kids.flatMap leafPaths).map fun l => (l.1, n.id :: l.2) := by
  obtain ⟨id, first, rest, rfl⟩ := n.exists_branch
  show (first.leafPaths ++ rest.flatMap fun e => e.2.leafPaths).map (fun l => (l.1, id :: l.2))
    = ((first :: rest.map Prod.snd).flatMap leafPaths).map fun l => (l.1, id :: l.2)
  rw [flatMap_cons, flatMap_map]

theorem leafPaths_head {n : Node ι K V h} {l : ι × List ι} (hl : l ∈ n.leafPaths) :
    (l.2.head?).getD l.1 = n.id := by
  cases h with
  | zero =>
    rw [mem_singleton.mp hl]
    rfl
  | succ h =>
    rw [leafPaths_eq_kids] at hl
    obtain ⟨l', -, rfl⟩ := mem_map.mp hl
    rfl

end Node

/-- Whether a cell is a branch. -/
def Cell.isBranch : Cell ι K V → Bool
  | .leaf _ => false
  | .branch _ _ => true

theorem Node.height_le : ∀ {h : Nat} (n : Node ι K V h),
    h ≤ (n.cells.filter fun e => e.2.isBranch).length := by
  intro h
  induction h with
  | zero => intro n; exact Nat.zero_le _
  | succ h ih =>
    intro n
    obtain ⟨id, first, rest, rfl⟩ := n.exists_branch
    have hcells : (Node.branch id first rest).cells
        = (id, .branch first.id (Node.links rest)) :: (first.cells
          ++ rest.flatMap fun e => e.2.cells) := rfl
    rw [hcells, filter_cons_of_pos rfl, length_cons, filter_append, length_append]
    have := ih first
    omega

variable {shows : ι → Cell ι K V → Prop} {h : Nat}

theorem Rep.congr {shows' : ι → Cell ι K V → Prop} {n : Node ι K V h} (hn : Rep shows n)
    (himp : ∀ i ∈ n.ids, ∀ c, shows i c → shows' i c) : Rep shows' n := by
  intro e he
  refine himp e.1 ?_ e.2 (hn e he)
  rw [← Node.cells_map_fst]
  exact mem_map_of_mem he

theorem Rep.kid {n : Node ι K V (h + 1)} (hn : Rep shows n) {k : Node ι K V h} (hk : k ∈ n.kids) :
    Rep shows k := by
  intro e he
  refine hn e ?_
  rw [Node.cells_eq_kids]
  exact mem_cons_of_mem _ (mem_flatMap.mpr ⟨k, hk, he⟩)

theorem Rep.rename {n : Node ι K V h} (ρ : ι → ι)
    (hcells : ∀ e ∈ n.cells, shows (ρ e.1) (e.2.rename ρ)) : Rep shows (n.rename ρ) := by
  intro e he
  rw [Node.rename_cells] at he
  obtain ⟨e', he', rfl⟩ := mem_map.mp he
  exact hcells e' he'

end Pagedb.Lib
