/-
  Pagedb.Lib.TreeTower — a search tree built from the bottom.

  Subtrees come from left to right.  A tower holds, at every height, those no
  branch stands over yet, each with the key that separates it from everything
  to its left.  A branch over a whole level changes nothing in the read-out.

    * `Tower.items`    — the read-out of a tower;
    * `inOrder_blocks` — ascending records cut into blocks read out in order,
      each block behind its first key.
-/
import Pagedb.Lib.Paging
import Pagedb.Lib.TreeLeaves

namespace Pagedb.Lib

open List

variable {ι K V : Type} {h : Nat}

/-- The addresses of the leaves from left to right. -/
def Node.leafIds (n : Node ι K V h) : List ι := n.leaves.map LeafAt.id

/-- A tree under construction from height `h` on. -/
inductive Tower (ι K V : Type) : Nat → Type
  | top {h : Nat} : Tower ι K V h
  | level {h : Nat} (kids : List (K × Node ι K V h)) (up : Tower ι K V (h + 1)) : Tower ι K V h

namespace Tower

/-- Every address of the tower with its cell. -/
def cells : {h : Nat} → Tower ι K V h → List (ι × Cell ι K V)
  | _, top => []
  | _, level kids up => up.cells ++ kids.flatMap fun e => e.2.cells

/-- The addresses of the tower. -/
def ids : {h : Nat} → Tower ι K V h → List ι
  | _, top => []
  | _, level kids up => up.ids ++ kids.flatMap fun e => e.2.ids

/-- The read-out: what stands higher came first. -/
def items : {h : Nat} → Tower ι K V h → List (Item K V)
  | _, top => []
  | _, level kids up => up.items ++ kids.flatMap fun e => .sep e.1 :: e.2.items

/-- The addresses of the leaves from left to right. -/
def leafIds : {h : Nat} → Tower ι K V h → List ι
  | _, top => []
  | _, level kids up => up.leafIds ++ kids.flatMap fun e => e.2.leafIds

theorem cells_map_fst (T : Tower ι K V h) : T.cells.map Prod.fst = T.ids := by
  induction T with
  | top => rfl
  | level kids up ih =>
    show (up.cells ++ kids.flatMap fun e => e.2.cells).map Prod.fst
      = up.ids ++ kids.flatMap fun e => e.2.ids
    rw [map_append, ih, map_flatMap]
    simp only [Node.cells_map_fst]

theorem leafIds_subset (T : Tower ι K V h) : T.leafIds ⊆ T.ids := by
  induction T with
  | top => exact List.Subset.refl _
  | level kids up ih =>
    intro p hp
    rcases mem_append.mp hp with hp | hp
    · exact mem_append_left _ (ih hp)
    · obtain ⟨e, he, hp⟩ := mem_flatMap.mp hp
      refine mem_append_right _ (mem_flatMap.mpr ⟨e, he, ?_⟩)
      exact (Node.leaves_ids_sublist e.2).subset hp

end Tower

theorem leafIds_branch (id : ι) (k : K) (first : Node ι K V h) (rest : List (K × Node ι K V h)) :
    (Node.branch id first rest).leafIds = ((k, first) :: rest).flatMap fun e => e.2.leafIds := by
  have hunder : (LeafAt.id ∘ LeafAt.under [id] : LeafAt ι K V → ι) = LeafAt.id := rfl
  show ((first.leaves ++ rest.flatMap fun e => e.2.leaves).map (LeafAt.under [id])).map LeafAt.id
    = first.leafIds ++ rest.flatMap fun e => e.2.leafIds
  rw [map_map, hunder, map_append, map_flatMap]
  rfl

/-! ## Blocks of records -/

/-- The key of an item. -/
def Item.key : Item K V → K
  | .sep k => k
  | .entry k _ => k

/-- A block of records behind its first key. -/
def block : List (K × V) → List (Item K V)
  | [] => []
  | r :: records => .sep r.1 :: entries (r :: records)

theorem recordsOf_block (records : List (K × V)) : recordsOf (block records) = records := by
  cases records with
  | nil => rfl
  | cons r records => exact recordsOf_records (r :: records)

theorem recordsOf_blocks (blocks : List (List (K × V))) :
    recordsOf (blocks.flatMap block) = blocks.flatten := by
  induction blocks with
  | nil => rfl
  | cons b blocks ih =>
    rw [flatMap_cons, recordsOf_append, recordsOf_block, ih]
    rfl

theorem key_of_mem_block {records : List (K × V)} {x : Item K V} (hx : x ∈ block records) :
    ∃ r ∈ records, x.key = r.1 := by
  cases records with
  | nil => cases hx
  | cons r records =>
    rcases mem_cons.mp hx with rfl | hx
    · exact ⟨r, mem_cons_self, rfl⟩
    · obtain ⟨r', hr', rfl⟩ := mem_map.mp hx
      exact ⟨r', hr', rfl⟩

variable [LinearOrder K]

theorem Item.lt_of_key_lt {x y : Item K V} (hlt : x.key < y.key) : x.lt y := by
  cases x with
  | sep a =>
    cases y with
    | sep b => exact hlt
    | entry b w => exact le_of_lt hlt
  | entry a v =>
    cases y <;> exact hlt

theorem inOrder_block {records : List (K × V)} (h : Ascending records) :
    InOrder (block records) := by
  cases records with
  | nil => exact List.Pairwise.nil
  | cons r records =>
    refine pairwise_cons.mpr ⟨fun x hx => ?_, inOrder_entries.mpr h⟩
    obtain ⟨r', hr', rfl⟩ := mem_map.mp hx
    show r.1 ≤ r'.1
    rcases mem_cons.mp hr' with rfl | hr'
    · exact le_refl _
    · exact le_of_lt ((pairwise_cons.mp h).1 r' hr')

/-- **Ascending records cut into blocks read out in order.** -/
theorem inOrder_blocks {blocks : List (List (K × V))} (h : Ascending blocks.flatten) :
    InOrder (blocks.flatMap block) := by
  induction blocks with
  | nil => exact List.Pairwise.nil
  | cons b blocks ih =>
    obtain ⟨hb, hblocks, hcross⟩ := pairwise_append.mp (flatten_cons ▸ h)
    rw [flatMap_cons]
    refine pairwise_append.mpr ⟨inOrder_block hb, ih hblocks, fun x hx y hy => ?_⟩
    obtain ⟨r, hr, hxr⟩ := key_of_mem_block hx
    obtain ⟨b', hb', hy⟩ := mem_flatMap.mp hy
    obtain ⟨r', hr', hyr⟩ := key_of_mem_block hy
    refine Item.lt_of_key_lt ?_
    rw [hxr, hyr]
    exact hcross r hr r' (mem_flatten.mpr ⟨b', hb', hr'⟩)

end Pagedb.Lib
