/-
  Pagedb.Lib.TreePaths — root-to-leaf paths of a search tree.

  In a tree whose addresses are distinct, an address lies at one depth
  (`Node.depth_unique`), and whoever links to an address on a path is the
  address before it on that path (`Node.parent_on_path`).
-/
import Pagedb.Lib.SearchTree

namespace Pagedb.Lib

open List

variable {ι K V : Type}

/-- The links of a cell. -/
def Cell.links : Cell ι K V → List ι
  | .leaf _ => []
  | .branch first rest => first :: rest.map Prod.snd

/-- A leaf's path with the leaf itself at its end. -/
def fullPath (l : ι × List ι) : List ι := l.2 ++ [l.1]

namespace Node

variable {h : Nat}

theorem cell_links (n : Node ι K V (h + 1)) : n.cell.links = n.kids.map id := by
  obtain ⟨i, first, rest, rfl⟩ := n.exists_branch
  show first.id :: (links rest).map Prod.snd = first.id :: (rest.map Prod.snd).map id
  unfold links
  rw [map_map, map_map]
  rfl

variable {n : Node ι K V (h + 1)} {l : ι × List ι} {k : Node ι K V h}

theorem exists_kid_path (hl : l ∈ n.leafPaths) :
    ∃ k ∈ n.kids, ∃ l' ∈ k.leafPaths, l.1 = l'.1 ∧ fullPath l = n.id :: fullPath l' := by
  rw [leafPaths_eq_kids] at hl
  obtain ⟨l', hl', rfl⟩ := mem_map.mp hl
  obtain ⟨k, hk, hlk⟩ := mem_flatMap.mp hl'
  exact ⟨k, hk, l', hlk, rfl, rfl⟩

theorem fullPath_subset {n : Node ι K V h} (hl : l ∈ n.leafPaths) : fullPath l ⊆ n.ids := by
  intro x hx
  rcases mem_append.mp hx with hx | hx
  · exact leafPaths_snd_mem h n l hl x hx
  · rw [mem_singleton.mp hx]
    exact leafPaths_fst_mem h n l hl

theorem leafPaths_length : ∀ {h : Nat} {n : Node ι K V h} {l : ι × List ι}, l ∈ n.leafPaths →
    l.2.length = h := by
  intro h
  induction h with
  | zero =>
    intro n l hl
    rw [mem_singleton.mp hl]
    rfl
  | succ h ih =>
    intro n l hl
    rw [leafPaths_eq_kids] at hl
    obtain ⟨l', hl', rfl⟩ := mem_map.mp hl
    obtain ⟨k, -, hlk⟩ := mem_flatMap.mp hl'
    show l'.2.length + 1 = h + 1
    rw [ih hlk]

theorem fullPath_zero {n : Node ι K V h} (hl : l ∈ n.leafPaths) : (fullPath l)[0]? = some n.id := by
  cases h with
  | zero =>
    rw [mem_singleton.mp hl]
    rfl
  | succ h =>
    obtain ⟨k, -, l', -, -, heq⟩ := exists_kid_path hl
    rw [heq]
    rfl

/-- Every link leads into the tree. -/
theorem links_subset : ∀ (h : Nat) (n : Node ι K V h), ∀ e ∈ n.cells, e.2.links ⊆ n.ids := by
  intro h
  induction h with
  | zero =>
    intro n e he
    obtain ⟨id, records, rfl⟩ := n.exists_leaf
    rw [mem_singleton.mp he]
    exact nil_subset _
  | succ h ih =>
    intro n e he x hx
    rw [ids_eq_kids]
    rw [cells_eq_kids] at he
    rcases mem_cons.mp he with rfl | he
    · rw [cell_links] at hx
      obtain ⟨k, hk, rfl⟩ := mem_map.mp hx
      exact mem_cons_of_mem _ (mem_flatMap.mpr ⟨k, hk, k.id_mem_ids⟩)
    · obtain ⟨k, hk, hek⟩ := mem_flatMap.mp he
      exact mem_cons_of_mem _ (mem_flatMap.mpr ⟨k, hk, ih k e hek hx⟩)

theorem kid_unique (hn : n.ids.Nodup) {k' : Node ι K V h} {x : ι} (hk : k ∈ n.kids)
    (hk' : k' ∈ n.kids) (hx : x ∈ k.ids) (hx' : x ∈ k'.ids) : k = k' := by
  rw [ids_eq_kids] at hn
  have hdisj := (nodup_flatMap.mp (nodup_cons.mp hn).2).2
  by_contra hne
  have : Std.Symm (Function.onFun List.Disjoint (ids : Node ι K V h → List ι)) :=
    ⟨fun _ _ hab _ hx hx' => hab hx' hx⟩
  exact hdisj.forall hk hk' hne hx hx'

theorem kids_nodup (hn : n.ids.Nodup) : n.kids.Nodup := by
  rw [ids_eq_kids] at hn
  refine (nodup_flatMap.mp (nodup_cons.mp hn).2).2.imp ?_
  rintro k _ hdisj rfl
  exact hdisj k.id_mem_ids k.id_mem_ids

theorem kid_nodup (hn : n.ids.Nodup) (hk : k ∈ n.kids) : k.ids.Nodup := by
  rw [ids_eq_kids] at hn
  exact (nodup_flatMap.mp (nodup_cons.mp hn).2).1 k hk

theorem id_notMem_kid (hn : n.ids.Nodup) (hk : k ∈ n.kids) : n.id ∉ k.ids := by
  rw [ids_eq_kids] at hn
  exact fun hmem => (nodup_cons.mp hn).1 (mem_flatMap.mpr ⟨k, hk, hmem⟩)

/-- **An address lies at one depth.** -/
theorem depth_unique : ∀ {h : Nat} {n : Node ι K V h}, n.ids.Nodup →
    ∀ {l l' : ι × List ι}, l ∈ n.leafPaths → l' ∈ n.leafPaths →
    ∀ {i j : Nat} {x : ι}, (fullPath l)[i]? = some x → (fullPath l')[j]? = some x → i = j := by
  intro h
  induction h with
  | zero =>
    intro n _ l l' hl hl' i j x hi hj
    rw [mem_singleton.mp hl] at hi
    rw [mem_singleton.mp hl'] at hj
    have hi := (List.getElem?_eq_some_iff.mp hi).1
    have hj := (List.getElem?_eq_some_iff.mp hj).1
    change i < 1 at hi
    change j < 1 at hj
    omega
  | succ h ih =>
    intro n hn l l' hl hl' i j x hi hj
    obtain ⟨k, hk, m, hm, -, hfull⟩ := exists_kid_path hl
    obtain ⟨k', hk', m', hm', -, hfull'⟩ := exists_kid_path hl'
    rw [hfull] at hi
    rw [hfull'] at hj
    cases i with
    | zero =>
      obtain rfl := Option.some.inj hi
      cases j with
      | zero => rfl
      | succ j =>
        have hmem := fullPath_subset hm' (mem_of_getElem? hj)
        exact absurd hmem (id_notMem_kid hn hk')
    | succ i =>
      have hi : (fullPath m)[i]? = some x := hi
      have hmem := fullPath_subset hm (mem_of_getElem? hi)
      cases j with
      | zero =>
        obtain rfl := Option.some.inj hj
        exact absurd hmem (id_notMem_kid hn hk)
      | succ j =>
        have hj : (fullPath m')[j]? = some x := hj
        have hmem' := fullPath_subset hm' (mem_of_getElem? hj)
        obtain rfl := kid_unique hn hk hk' hmem hmem'
        rw [ih (kid_nodup hn hk) hm hm' hi hj]

/-- **Whoever links to an address on a path stands before it on the path.** -/
theorem parent_on_path : ∀ {h : Nat} {n : Node ι K V h}, n.ids.Nodup →
    ∀ {l : ι × List ι}, l ∈ n.leafPaths → ∀ {e : ι × Cell ι K V}, e ∈ n.cells →
    ∀ {x : ι}, x ∈ e.2.links → ∀ {j : Nat}, (fullPath l)[j]? = some x →
    ∃ i, j = i + 1 ∧ (fullPath l)[i]? = some e.1 := by
  intro h
  induction h with
  | zero =>
    intro n _ l _ e he x hx
    obtain ⟨id, records, rfl⟩ := n.exists_leaf
    rw [mem_singleton.mp he] at hx
    cases hx
  | succ h ih =>
    intro n hn l hl e he x hx j hj
    obtain ⟨k', hk', m, hm, -, hfull⟩ := exists_kid_path hl
    rw [hfull] at hj ⊢
    rw [cells_eq_kids] at he
    -- the child whose subtree `x` lies in
    have hkid : ∃ k ∈ n.kids, x ∈ k.ids ∧ (e = (n.id, n.cell) ∧ x = k.id ∨ e ∈ k.cells) := by
      rcases mem_cons.mp he with rfl | he
      · rw [cell_links] at hx
        obtain ⟨k, hk, rfl⟩ := mem_map.mp hx
        exact ⟨k, hk, k.id_mem_ids, Or.inl ⟨rfl, rfl⟩⟩
      · obtain ⟨k, hk, hek⟩ := mem_flatMap.mp he
        exact ⟨k, hk, links_subset h k e hek hx, Or.inr hek⟩
    obtain ⟨k, hk, hxk, hcase⟩ := hkid
    cases j with
    | zero =>
      obtain rfl := Option.some.inj hj
      exact absurd hxk (id_notMem_kid hn hk)
    | succ j =>
      have hj : (fullPath m)[j]? = some x := hj
      obtain rfl := kid_unique hn hk hk' hxk (fullPath_subset hm (mem_of_getElem? hj))
      rcases hcase with ⟨rfl, rfl⟩ | hek
      · have hzero := depth_unique (kid_nodup hn hk) hm hm hj (fullPath_zero hm)
        subst hzero
        exact ⟨0, rfl, rfl⟩
      · obtain ⟨i, rfl, hi⟩ := ih (kid_nodup hn hk) hm hek hx hj
        exact ⟨i + 1, rfl, hi⟩

/-- Each address on a path links to the next one. -/
theorem path_links : ∀ {h : Nat} {n : Node ι K V h} {l : ι × List ι}, l ∈ n.leafPaths →
    ∀ {i : Nat} {x y : ι}, (fullPath l)[i]? = some x → (fullPath l)[i + 1]? = some y →
    ∃ c, (x, c) ∈ n.cells ∧ y ∈ c.links := by
  intro h
  induction h with
  | zero =>
    intro n l hl i x y hi hj
    rw [mem_singleton.mp hl] at hj
    have hj := (List.getElem?_eq_some_iff.mp hj).1
    change i + 1 < 1 at hj
    omega
  | succ h ih =>
    intro n l hl i x y hi hj
    obtain ⟨k, hk, m, hm, -, hfull⟩ := exists_kid_path hl
    rw [hfull] at hi hj
    rw [cells_eq_kids]
    cases i with
    | zero =>
      obtain rfl := Option.some.inj hi
      have hj : (fullPath m)[0]? = some y := hj
      rw [fullPath_zero hm] at hj
      obtain rfl := Option.some.inj hj
      refine ⟨n.cell, mem_cons_self, ?_⟩
      rw [cell_links]
      exact mem_map_of_mem hk
    | succ i =>
      obtain ⟨c, hc, hy⟩ := ih hm hi hj
      exact ⟨c, mem_cons_of_mem _ (mem_flatMap.mpr ⟨k, hk, hc⟩), hy⟩

end Node

theorem Cell.rename_eq_self {ρ : ι → ι} {c : Cell ι K V} (h : ∀ x ∈ c.links, ρ x = x) :
    c.rename ρ = c := by
  cases c with
  | leaf records => rfl
  | branch first rest =>
    show Cell.branch (ρ first) (rest.map fun e => (e.1, ρ e.2)) = Cell.branch first rest
    rw [h first mem_cons_self]
    congr 1
    refine (map_congr_left fun e he => ?_).trans (map_id rest)
    rw [h e.2 (mem_cons_of_mem _ (mem_map_of_mem he))]
    rfl

end Pagedb.Lib
